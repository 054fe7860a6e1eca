/-
Scopes that grow.

While a tree is read, a scope only ever extends (`Scope.Extends`), so a name keeps its slot
and a constant its place.  What is declared besides parameters keeps these, too
(`Scope.Later`), and parameters with different names get the first slots
(`Scope.foldl_addFormal`).
-/
import PageScript.Scope

namespace PageScript

open List

namespace SymbolMap

theorem index_ge (m : SymbolMap) : -1 ≤ m.index := by
  rw [index_eq]
  omega

theorem lookup_node (back : SymbolMap) (last name : Option String) :
    (node back last).lookup name = if last = name then back.index + 1 else back.lookup name :=
  rfl

theorem lookup_le_index (m : SymbolMap) (name : Option String) : m.lookup name ≤ m.index := by
  induction m with
  | root => exact Int.le_refl _
  | node back last ih =>
    rw [lookup_node, index]
    split <;> omega

theorem lookup_lt_size (m : SymbolMap) (name : Option String) : m.lookup name < m.size := by
  have hle := m.lookup_le_index name
  rw [size]
  omega

theorem lookup_inj {m : SymbolMap} {name other : Option String} (h : 0 ≤ m.lookup name)
    (heq : m.lookup name = m.lookup other) : name = other := by
  induction m with
  | root => exact absurd (show (0 : Int) ≤ -1 from h) (by decide)
  | node back last ih =>
    -- The name added last has a greater number than all before it.
    have hname := back.lookup_le_index name
    have hother := back.lookup_le_index other
    rw [lookup_node] at h heq
    rw [lookup_node] at heq
    split at heq <;> split at heq
    · exact ‹last = name›.symm.trans ‹last = other›
    · omega
    · omega
    · rw [if_neg ‹_›] at h
      exact ih h heq

theorem lookup_ge (m : SymbolMap) (name : Option String) : -1 ≤ m.lookup name := by
  induction m with
  | root => exact Int.le_refl _
  | node back last ih =>
    have hge := back.index_ge
    rw [lookup_node]
    split
    · omega
    · exact ih

theorem lookup_insert_self (m : SymbolMap) (name : String) :
    0 ≤ (m.insert name).lookup (some name) := by
  have hindex := m.index_ge
  have hlookup := m.lookup_ge (some name)
  rw [insert]
  split
  case isTrue =>
    rw [lookup_node, if_pos rfl]
    omega
  case isFalse hfound =>
    have hne : m.lookup (some name) ≠ -1 := hfound
    omega

theorem lookup_insert (m : SymbolMap) (name : String) {other : Option String}
    (h : 0 ≤ m.lookup other) : (m.insert name).lookup other = m.lookup other := by
  rw [insert]
  split
  case isFalse => rfl
  case isTrue hfree =>
    rw [lookup_node, if_neg]
    rintro rfl
    rw [hfree] at h
    exact absurd h (by decide)

theorem lookup_insert_of_ne (m : SymbolMap) {name other : String} (h : other ≠ name) :
    (m.insert name).lookup (some other) = m.lookup (some other) := by
  rw [insert]
  split
  · rw [lookup_node, if_neg fun heq => h (Option.some.inj heq).symm]
  · rfl

end SymbolMap

/-- What has a slot or a place in the first scope has it in the second. -/
structure Scope.Extends (s t : Scope) : Prop where
  symbols : ∀ name, 0 ≤ s.symbols.lookup name → t.symbols.lookup name = s.symbols.lookup name
  constants : s.constants <+: t.constants

namespace Scope.Extends

variable {s t u : Scope}

theorem refl (s : Scope) : s.Extends s := ⟨fun _ _ => rfl, prefix_refl _⟩

theorem trans (h : s.Extends t) (h' : t.Extends u) : s.Extends u where
  symbols name hname := by
    have ht := h.symbols name hname
    rw [h'.symbols name (by omega), ht]
  constants := h.constants.trans h'.constants

theorem addSymbol (s : Scope) (name : String) : s.Extends (s.addSymbol name).2 where
  symbols _ := s.symbols.lookup_insert name
  constants := prefix_refl _

theorem addConstant (s : Scope) (same : Value → Bool) (v : Value) :
    s.Extends (s.addConstant same v).2 := by
  unfold Scope.addConstant
  split
  · exact refl s
  · exact ⟨fun _ _ => rfl, prefix_append _ _⟩

theorem constant (h : s.Extends t) {place : Nat} {v : Value} (hv : s.constants[place]? = some v) :
    t.constants[place]? = some v := by
  obtain ⟨rest, hrest⟩ := h.constants
  obtain ⟨hlt, -⟩ := List.getElem?_eq_some_iff.1 hv
  rw [← hrest, getElem?_append_left hlt, hv]

end Scope.Extends

def Node.SlotIn (s : Scope) (name : String) (slot : Int) : Prop :=
  slot = s.symbols.lookup (some name) ∧ 0 ≤ slot ∧ slot < s.symbols.size

/-- Names that are declared global have their slots, and a superglobal has the
slot of its name where it is noted. -/
structure Scope.Named (s : Scope) : Prop where
  globals : ∀ e ∈ s.globals, Node.SlotIn s e.1 e.2
  superglobals : ∀ e ∈ superglobalNames.zip s.superglobals,
    e.2 = SymbolMap.notFound ∨ Node.SlotIn s e.1 e.2

namespace Scope.Named

variable {s : Scope} {name : String}

theorem slotIn_extend {t : Scope} {slot : Int} (hext : s.Extends t) (h : Node.SlotIn s name slot) :
    Node.SlotIn t name slot := by
  obtain ⟨rfl, hge, -⟩ := h
  have hsame := hext.symbols (some name) hge
  have hlt := t.symbols.lookup_lt_size (some name)
  exact ⟨hsame.symm, hge, by omega⟩

theorem slotIn_addSymbol (s : Scope) (name : String) :
    Node.SlotIn (s.addSymbol name).2 name (s.addSymbol name).1 :=
  ⟨rfl, s.symbols.lookup_insert_self name, SymbolMap.lookup_lt_size _ _⟩

theorem new : ({} : Scope).Named where
  globals := nofun
  superglobals e he := by
    simp [superglobalNames] at he
    rcases he with rfl | rfl <;> exact .inl rfl

theorem addSymbol (h : s.Named) (name : String) : (s.addSymbol name).2.Named where
  globals e he := slotIn_extend (.addSymbol s name) (h.globals e he)
  superglobals e he := (h.superglobals e he).imp_right (slotIn_extend (.addSymbol s name))

theorem of_mem_zip_map {names : List String} {slots : List Int} {f : String × Int → Int}
    {e : String × Int} (h : e ∈ names.zip ((names.zip slots).map f)) :
    ∃ old, (e.1, old) ∈ names.zip slots ∧ e.2 = f (e.1, old) := by
  induction names generalizing slots with
  | nil => cases h
  | cons name names ih =>
    cases slots with
    | nil => cases h
    | cons slot slots =>
      rcases mem_cons.1 h with rfl | h
      · exact ⟨slot, mem_cons_self, rfl⟩
      · obtain ⟨old, hold, he⟩ := ih h
        exact ⟨old, mem_cons_of_mem _ hold, he⟩

theorem addVariable (h : s.Named) (name : String) : (s.addVariable name).2.Named where
  globals := (h.addSymbol name).globals
  superglobals e he := by
    obtain ⟨old, hold, hslot⟩ := of_mem_zip_map he
    rw [hslot]
    dsimp only
    split
    case isTrue hname =>
      rw [hname]
      exact .inr (slotIn_addSymbol s name)
    case isFalse => exact (h.addSymbol name).superglobals (e.1, old) hold

theorem mem_globals_addGlobal (s : Scope) (name : String) (e : String × Int) :
    e ∈ (s.addGlobal name).2.globals ↔ e ∈ s.globals ∨ e = (name, (s.addSymbol name).1) := by
  show e ∈ appendNew s.globals (name, (s.addSymbol name).1) ↔ _
  unfold appendNew
  split
  case isTrue hfound =>
    refine (or_iff_left_of_imp ?_).symm
    rintro rfl
    exact contains_iff_mem.1 hfound
  case isFalse => rw [mem_append, mem_singleton]

theorem addGlobal (h : s.Named) (name : String) : (s.addGlobal name).2.Named where
  globals e he := by
    rcases (mem_globals_addGlobal s name e).1 he with he | rfl
    · exact (h.addSymbol name).globals e he
    · exact slotIn_addSymbol s name
  superglobals := (h.addSymbol name).superglobals

theorem addParameter (h : s.Named) (name : String) (byValue : Bool) :
    (s.addParameter name byValue).2.Named :=
  ⟨(h.addSymbol name).globals, (h.addSymbol name).superglobals⟩

theorem addConstant (h : s.Named) (same : Value → Bool) (v : Value) :
    (s.addConstant same v).2.Named := by
  unfold Scope.addConstant
  split
  · exact h
  · exact ⟨h.globals, h.superglobals⟩

end Scope.Named

/-- Each superglobal has an entry, in which its slot is noted if it has one, unless
it is declared global. -/
structure Scope.Noted (s : Scope) : Prop where
  length : s.superglobals.length = superglobalNames.length
  slot : ∀ e ∈ superglobalNames.zip s.superglobals, 0 ≤ s.symbols.lookup (some e.1) →
    e.1 ∉ s.globals.map Prod.fst → e.2 = s.symbols.lookup (some e.1)

namespace Scope.Noted

variable {s : Scope}

theorem new : ({} : Scope).Noted where
  length := length_map _
  slot _ _ hge := absurd (show (0 : Int) ≤ -1 from hge) (by decide)

theorem addVariable (h : s.Noted) (name : String) : (s.addVariable name).2.Noted where
  length := by
    show (noteSuperglobal s.superglobals name _).length = _
    rw [noteSuperglobal, length_map, length_zip, h.length, Nat.min_self]
  slot e he hge hglobal := by
    obtain ⟨old, hold, hslot⟩ := Named.of_mem_zip_map he
    rw [hslot]
    dsimp only
    split
    case isTrue hname =>
      rw [hname]
      rfl
    case isFalse hname =>
      -- The entries of other superglobals stay, and so do their slots.
      have hsame := s.symbols.lookup_insert_of_ne hname
      exact (h.slot (e.1, old) hold (hsame ▸ hge) hglobal).trans hsame.symm

theorem addGlobal (h : s.Noted) (name : String) : (s.addGlobal name).2.Noted where
  length := h.length
  slot e he hge hglobal := by
    have hmem := Named.mem_globals_addGlobal s name
    have hname : e.1 ≠ name := by
      rintro rfl
      exact hglobal (mem_map.2 ⟨_, (hmem _).2 (.inr rfl), rfl⟩)
    have hsame := s.symbols.lookup_insert_of_ne hname
    refine (h.slot e he (hsame ▸ hge) fun hold => ?_).trans hsame.symm
    obtain ⟨other, hother, hfirst⟩ := mem_map.1 hold
    exact hglobal (hfirst ▸ mem_map_of_mem ((hmem other).2 (.inl hother)))

theorem addConstant (h : s.Noted) (same : Value → Bool) (v : Value) :
    (s.addConstant same v).2.Noted := by
  unfold Scope.addConstant
  split
  · exact h
  · exact ⟨h.length, h.slot⟩

end Scope.Noted

/-- A value that can stand in a program. -/
def Value.isLiteral : Value → Bool
  | .int _ | .float _ | .text _ | .template _ => true
  | _ => false

/-- The pool of constants has only such values. -/
def Scope.Literal (s : Scope) : Prop := ∀ v ∈ s.constants, v.isLiteral

theorem Scope.Literal.addConstant {s : Scope} {same : Value → Bool} {v : Value} (h : s.Literal)
    (hv : v.isLiteral) : (s.addConstant same v).2.Literal := by
  unfold Scope.addConstant
  split
  · exact h
  · intro w hw
    rcases mem_append.1 hw with hw | hw
    · exact h w hw
    · rwa [mem_singleton.1 hw]

/-- More is declared in a scope, but no parameter, and nothing but literals gets into
its pool of constants. -/
structure Scope.Later (s t : Scope) : Prop where
  growth : s.Extends t
  literal : s.Literal → t.Literal
  named : s.Named → t.Named
  noted : s.Noted → t.Noted
  parameters : t.parameters = s.parameters

namespace Scope.Later

variable {s t u : Scope}

theorem refl (s : Scope) : s.Later s := ⟨.refl s, id, id, id, rfl⟩

theorem trans (h : s.Later t) (h' : t.Later u) : s.Later u where
  growth := h.growth.trans h'.growth
  literal := h'.literal ∘ h.literal
  named := h'.named ∘ h.named
  noted := h'.noted ∘ h.noted
  parameters := h'.parameters.trans h.parameters

theorem addVariable (name : String) (s : Scope) : s.Later (s.addVariable name).2 where
  growth := ⟨(Extends.addSymbol s name).symbols, prefix_refl _⟩
  literal := id
  named h := h.addVariable name
  noted h := h.addVariable name
  parameters := rfl

theorem addGlobal (name : String) (s : Scope) : s.Later (s.addGlobal name).2 where
  growth := ⟨(Extends.addSymbol s name).symbols, prefix_refl _⟩
  literal := id
  named h := h.addGlobal name
  noted h := h.addGlobal name
  parameters := rfl

theorem addConstant {same : Value → Bool} {v : Value} (hv : v.isLiteral) (s : Scope) :
    s.Later (s.addConstant same v).2 where
  growth := .addConstant s same v
  literal h := h.addConstant hv
  named h := h.addConstant same v
  noted h := h.addConstant same v
  parameters := by
    unfold Scope.addConstant
    split <;> rfl

end Scope.Later

/-! ### Parameters -/

/-- A parameter is a variable, and it is noted how it is passed. -/
def Scope.addFormal (s : Scope) (p : String × Bool) : Scope :=
  ((s.addVariable p.1).2.addParameter p.1 p.2).2

namespace Scope

variable {s : Scope} {p : String × Bool} {formals : List (String × Bool)}

theorem symbols_addFormal (s : Scope) (p : String × Bool) :
    (s.addFormal p).symbols = s.symbols.insert p.1 := by
  have hself := s.symbols.lookup_insert_self p.1
  have hfound : (s.symbols.insert p.1).lookup (some p.1) ≠ SymbolMap.notFound := by
    intro hfree
    rw [hfree] at hself
    exact absurd hself (by decide)
  exact if_neg hfound

theorem extends_foldl_addFormal (formals : List (String × Bool)) (s : Scope) :
    s.Extends (formals.foldl addFormal s) := by
  induction formals generalizing s with
  | nil => exact .refl s
  | cons p formals ih =>
    have hformal : s.Extends (s.addFormal p) := by
      refine ⟨fun name hname => ?_, prefix_refl _⟩
      rw [symbols_addFormal]
      exact s.symbols.lookup_insert p.1 hname
    exact hformal.trans (ih _)

theorem Noted.addFormal (h : s.Noted) (p : String × Bool) : (s.addFormal p).Noted where
  length := (h.addVariable p.1).length
  slot := by
    rw [symbols_addFormal]
    exact (h.addVariable p.1).slot

theorem named_foldl_addFormal (h : s.Named) (hnoted : s.Noted) :
    (formals.foldl addFormal s).Named ∧ (formals.foldl addFormal s).Noted := by
  induction formals generalizing s with
  | nil => exact ⟨h, hnoted⟩
  | cons p formals ih => exact ih ((h.addVariable p.1).addParameter p.1 p.2) (hnoted.addFormal p)

theorem Named.superglobal (h : s.Named) (hnoted : s.Noted)
    {k : Nat} {slot : Int} (hk : s.superglobals[k]? = some slot) (hge : 0 ≤ slot) :
    ∃ g, superglobalNames[k]? = some g ∧ Node.SlotIn s g slot := by
  obtain ⟨hlt, rfl⟩ := List.getElem?_eq_some_iff.1 hk
  have hlt' : k < superglobalNames.length := hnoted.length ▸ hlt
  have hname : superglobalNames[k]? = some superglobalNames[k] := getElem?_eq_getElem _
  refine ⟨_, hname, (h.superglobals (superglobalNames[k], s.superglobals[k]) ?_).resolve_left ?_⟩
  · exact mem_of_getElem? (getElem?_zip_eq_some.2 ⟨hname, hk⟩)
  · intro hfree
    have hslot : s.superglobals[k] = -1 := hfree
    omega

theorem Named.pairwise (h : s.Named) (hnoted : s.Noted) :
    s.superglobals.Pairwise fun slot other => 0 ≤ slot → slot ≠ other := by
  have hnodup : superglobalNames.Nodup := by decide
  rw [pairwise_iff_getElem]
  intro i j hi hj hij hge heq
  obtain ⟨g, hg, hslot, -⟩ := h.superglobal hnoted (getElem?_eq_getElem hi) hge
  obtain ⟨g', hg', hslot', -⟩ := h.superglobal hnoted (getElem?_eq_getElem hj) (heq ▸ hge)
  have hname := SymbolMap.lookup_inj (hslot ▸ hge) (hslot.symm.trans (heq.trans hslot'))
  obtain ⟨hi', rfl⟩ := List.getElem?_eq_some_iff.1 hg
  obtain ⟨hj', rfl⟩ := List.getElem?_eq_some_iff.1 hg'
  exact pairwise_iff_getElem.1 hnodup i j hi' hj' hij (Option.some.inj hname)

theorem Noted.superglobal (h : s.Noted) {k : Nat} {g : String} (hg : superglobalNames[k]? = some g)
    (hge : 0 ≤ s.symbols.lookup (some g)) (hglobal : g ∉ s.globals.map Prod.fst) :
    s.superglobals[k]? = some (s.symbols.lookup (some g)) := by
  obtain ⟨hlt, -⟩ := List.getElem?_eq_some_iff.1 hg
  have hlt' : k < s.superglobals.length := h.length ▸ hlt
  have hk : s.superglobals[k]? = some s.superglobals[k] := getElem?_eq_getElem _
  have hentry : (g, s.superglobals[k]) ∈ superglobalNames.zip s.superglobals :=
    mem_of_getElem? (getElem?_zip_eq_some.2 ⟨hg, hk⟩)
  exact hk.trans (congrArg some (h.slot _ hentry hge hglobal))

theorem foldl_addFormal (hnames : (formals.map Prod.fst).Nodup)
    (hnew : ∀ p ∈ formals, s.symbols.lookup (some p.1) = SymbolMap.notFound ∧ p ∉ s.parameters) :
    (formals.foldl addFormal s).parameters = s.parameters ++ formals ∧
      ∀ (i : Nat) p, formals[i]? = some p →
        (formals.foldl addFormal s).symbols.lookup (some p.1) = s.symbols.size + i := by
  induction formals generalizing s with
  | nil => exact ⟨(append_nil _).symm, fun i p hp => by cases hp⟩
  | cons p formals ih =>
    obtain ⟨hp, hnames⟩ := nodup_cons.1 hnames
    obtain ⟨⟨hfree, hother⟩, hnew⟩ := forall_mem_cons.1 hnew
    have hsymbols : (s.addFormal p).symbols = .node s.symbols (some p.1) := by
      rw [symbols_addFormal]
      exact if_pos hfree
    have hparameters : (s.addFormal p).parameters = s.parameters ++ [p] := by
      refine if_neg fun hmem => hother ?_
      exact contains_iff_mem.1 hmem
    obtain ⟨hall, hslots⟩ := ih (s := s.addFormal p) hnames fun q hq => by
      obtain ⟨hq₁, hq₂⟩ := hnew q hq
      have hne : p.1 ≠ q.1 := fun heq => hp (heq ▸ mem_map_of_mem hq)
      rw [hsymbols, hparameters, SymbolMap.lookup_node, if_neg (by simpa using hne)]
      refine ⟨hq₁, fun hmem => ?_⟩
      rcases mem_append.1 hmem with hmem | hmem
      · exact hq₂ hmem
      · exact hne (congrArg Prod.fst (mem_singleton.1 hmem)).symm
    refine ⟨?_, fun i q hq => ?_⟩
    · rw [foldl_cons, hall, hparameters, append_assoc]
      rfl
    · cases i with
      | zero =>
        cases hq
        have hslot : (s.addFormal p).symbols.lookup (some p.1) = s.symbols.size := by
          rw [hsymbols, SymbolMap.lookup_node, if_pos rfl]
          rfl
        have hge : 0 ≤ s.symbols.size := by
          have := s.symbols.index_ge
          rw [SymbolMap.size]
          omega
        rw [foldl_cons, (extends_foldl_addFormal formals _).symbols _ (by omega), hslot]
        exact (Int.add_zero _).symm
      | succ i =>
        rw [foldl_cons, hslots i q hq, hsymbols]
        show s.symbols.index + 1 + 1 + i = s.symbols.index + 1 + (i + 1 : Nat)
        omega

end Scope

end PageScript
