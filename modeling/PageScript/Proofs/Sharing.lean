/-
Maps that are shared.

All scopes get their maps from one trie.  Each node of it is a map, with pointers to the
maps that have one name more (`Trie.Node`); to add a name follows the pointer, or makes
a node and sets the pointer to it.  So a node changes while scopes use it, but not the
map that it is (`maps_grown`), and no map is made a second time: the pointers of a node
lead to all maps with one name more that there are (`Trie.Sound`).  Whatever was added, a
node stands for the names on the way to it (`shared_maps`).
-/
import PageScript.Proofs.Scopes

namespace PageScript

open List

namespace SymbolMap

variable {m : SymbolMap} {name : Option String}

theorem lookup_eq_notFound_iff : m.lookup name = notFound ↔ name ∉ m.names := by
  induction m with
  | root => simp [lookup, names]
  | node back last ih =>
    have hindex := back.index_ge
    rw [lookup_node, names, mem_append, mem_singleton]
    by_cases hlast : last = name
    · have hfound : back.index + 1 ≠ notFound := by
        rw [notFound]
        omega
      simp [hlast, hfound]
    · rw [if_neg hlast, ih, or_iff_left (Ne.symm hlast)]

theorem lookup_of_getElem? (hnodup : m.names.Nodup) {i : Nat} (h : m.names[i]? = some name) :
    m.lookup name = i := by
  induction m with
  | root => simp [names] at h
  | node back last ih =>
    rw [names, nodup_append] at hnodup
    rw [names] at h
    rw [lookup_node]
    by_cases hi : i < back.names.length
    · rw [getElem?_append_left hi] at h
      have hne : last ≠ name := fun hlast =>
        hnodup.2.2 name (mem_of_getElem? h) last (.head _) hlast.symm
      rw [if_neg hne, ih hnodup.1 h]
    · have hlast : i = back.names.length := by
        have hbound := (List.getElem?_eq_some_iff.1 h).1
        rw [length_append, length_singleton] at hbound
        omega
      subst hlast
      rw [getElem?_concat_length] at h
      rw [if_pos (Option.some.inj h), index_eq]
      omega

end SymbolMap

namespace Trie

open SymbolMap

/-- A map, and where the maps are that have one name more. -/
structure Node where
  map : SymbolMap
  forward : List (Option String × Nat) := []

def maps (t : List Node) : List SymbolMap := t.map Node.map

/-- A trie with a new node, to which a pointer is set. -/
def grown (t : List Node) (k : Nat) (n : Node) (name : Option String) : List Node :=
  t.set k { n with forward := (name, t.length) :: n.forward } ++ [{ map := .node n.map name }]

/-- Adds a name to the map at a node: the node with the name, and the trie. -/
def add (t : List Node) (k : Nat) (name : Option String) : Except Fault (Nat × List Node) :=
  match t[k]? with
  | none => .error .outOfRange
  | some n =>
    if n.map.lookup name = notFound then
      match n.forward.lookup name with
      | some id => .ok (id, t)
      | none => .ok (t.length, grown t k n name)
    else .error .checkFailed

/-- A call of `add` at a node; one that fails changes nothing. -/
def call (t : List Node) (c : Nat × Option String) : List Node :=
  match add t c.1 c.2 with
  | .ok (_, t') => t'
  | .error _ => t

def after (calls : List (Nat × Option String)) : List Node := calls.foldl call [{ map := .root }]

/-- After these calls, whoever has added these names, each at the node that the one before
has led to, is at this node.  Others may have added names in between. -/
inductive Reaches : List (Nat × Option String) → List (Option String) → Nat → Prop where
  | root : Reaches [] [] 0
  | later {calls names id} (c : Nat × Option String) :
    Reaches calls names id → Reaches (calls ++ [c]) names id
  | add {calls names id name id' t} :
    Reaches calls names id → add (after calls) id name = .ok (id', t) →
    Reaches (calls ++ [(id, name)]) (names ++ [name]) id'

/-- No map is there twice, and the pointers of a node lead to the maps that have one name
more than its own, to all of them that there are. -/
structure Sound (t : List Node) : Prop where
  distinct : (maps t).Nodup
  nodup : ∀ m ∈ maps t, m.names.Nodup
  closed : ∀ {m : SymbolMap} {name : Option String}, .node m name ∈ maps t → m ∈ maps t
  forward : ∀ {i : Nat} {n : Node}, t[i]? = some n → ∀ {name id}, n.forward.lookup name = some id →
    (maps t)[id]? = some (.node n.map name)
  complete : ∀ {i : Nat} {n : Node}, t[i]? = some n → ∀ {name}, n.forward.lookup name = none →
    .node n.map name ∉ maps t

variable {t : List Node} {k : Nat} {n : Node} {name : Option String}

theorem maps_grown (h : t[k]? = some n) (name : Option String) :
    maps (grown t k n name) = maps t ++ [.node n.map name] := by
  have hset : (t.map Node.map).set k n.map = t.map Node.map := by
    refine ext_getElem? fun i => ?_
    by_cases hi : k = i
    · subst hi
      have hlt := (List.getElem?_eq_some_iff.1 h).1
      rw [getElem?_set_self (by simpa using hlt), getElem?_map, h]
      rfl
    · rw [getElem?_set_ne hi]
  rw [maps, maps, grown, map_append, map_set, hset]
  rfl

theorem getElem?_grown {i : Nat} {n' : Node} (h : (grown t k n name)[i]? = some n') :
    i = k ∧ n' = { n with forward := (name, t.length) :: n.forward } ∨
      i ≠ k ∧ t[i]? = some n' ∨ n' = { map := .node n.map name } := by
  unfold grown at h
  by_cases hi : i < t.length
  · rw [getElem?_append_left (by simpa using hi)] at h
    by_cases hat : i = k
    · subst hat
      rw [getElem?_set_self hi] at h
      exact .inl ⟨rfl, (Option.some.inj h).symm⟩
    · rw [getElem?_set_ne (Ne.symm hat)] at h
      exact .inr (.inl ⟨hat, h⟩)
  · rw [getElem?_append_right (by simpa using hi)] at h
    exact .inr (.inr (mem_singleton.1 (mem_of_getElem? h)))

theorem Sound.grown (h : Sound t) (hn : t[k]? = some n) (hname : name ∉ n.map.names)
    (hnone : n.forward.lookup name = none) : Sound (grown t k n name) := by
  have hnew := h.complete hn hnone
  have hmap : (maps t)[k]? = some n.map := by rw [maps, getElem?_map, hn]; rfl
  have hlength : (maps t).length = t.length := length_map _
  have hstill : ∀ {id : Nat} {m : SymbolMap}, (maps t)[id]? = some m →
      (maps t ++ [.node n.map name])[id]? = some m := fun hm =>
    List.getElem?_append_left (List.getElem?_eq_some_iff.1 hm).1 ▸ hm
  constructor <;> rw [maps_grown hn]
  case distinct =>
    refine nodup_append.2 ⟨h.distinct, by simp, ?_⟩
    rintro m hm m' hm' rfl
    exact hnew (mem_singleton.1 hm' ▸ hm)
  case nodup =>
    intro m hm
    rcases mem_append.1 hm with hm | hm
    · exact h.nodup m hm
    · rw [mem_singleton.1 hm, names]
      have hold := h.nodup n.map (mem_of_getElem? hmap)
      refine nodup_append.2 ⟨hold, by simp, ?_⟩
      rintro a ha b hb rfl
      exact hname (mem_singleton.1 hb ▸ ha)
  case closed =>
    intro m name' hm
    rcases mem_append.1 hm with hm | hm
    · exact mem_append_left _ (h.closed hm)
    · cases mem_singleton.1 hm
      exact mem_append_left _ (mem_of_getElem? hmap)
  case forward =>
    intro i n' hi name' id hid
    rcases getElem?_grown hi with ⟨-, rfl⟩ | ⟨-, hi⟩ | rfl
    · rw [lookup_cons] at hid
      split at hid
      case h_1 hsame =>
        cases hid
        rw [beq_iff_eq.1 hsame, ← hlength, getElem?_concat_length]
      case h_2 => exact hstill (h.forward hn hid)
    · exact hstill (h.forward hi hid)
    · cases hid
  case complete =>
    intro i n' hi name' hid hmem
    rcases mem_append.1 hmem with hmem | hmem
    · -- A map that was there has the pointer it had.
      rcases getElem?_grown hi with ⟨-, rfl⟩ | ⟨-, hi⟩ | rfl
      · rw [lookup_cons] at hid
        split at hid
        case h_1 => cases hid
        case h_2 => exact h.complete hn hid hmem
      · exact h.complete hi hid hmem
      · exact hnew (h.closed hmem)
    · obtain ⟨hsame, rfl⟩ := SymbolMap.node.inj (mem_singleton.1 hmem)
      rcases getElem?_grown hi with ⟨-, rfl⟩ | ⟨hne, hi⟩ | rfl
      · simp at hid
      · have hmap' : (maps t)[i]? = some n.map := by rw [maps, getElem?_map, hi, ← hsame]; rfl
        have hlt := (List.getElem?_eq_some_iff.1 hmap').1
        exact hne ((getElem?_inj hlt h.distinct).1 (hmap'.trans hmap.symm))
      · have hsize := congrArg SymbolMap.size hsame
        simp only [size, index] at hsize
        omega

/-- A name that is not there can be added: the map with the name is then at the node. -/
theorem Sound.add (h : Sound t) {m : SymbolMap} (hm : (maps t)[k]? = some m)
    (hname : name ∉ m.names) : ∃ id t', add t k name = .ok (id, t') ∧ Sound t' ∧
      maps t <+: maps t' ∧ (maps t')[id]? = some (.node m name) := by
  rw [maps, getElem?_map] at hm
  obtain ⟨n, hn, rfl⟩ := Option.map_eq_some_iff.1 hm
  rw [Trie.add, hn]
  dsimp only
  rw [if_pos (lookup_eq_notFound_iff.2 hname)]
  split
  case h_1 id hid => exact ⟨id, t, rfl, h, prefix_refl _, h.forward hn hid⟩
  case h_2 hnone =>
    refine ⟨t.length, _, rfl, h.grown hn hname hnone, ?_, ?_⟩
    · rw [maps_grown hn]
      exact prefix_append _ _
    · rw [maps_grown hn, ← length_map (f := Node.map)]
      exact getElem?_concat_length

theorem add_of_mem {m : SymbolMap} (hm : (maps t)[k]? = some m) (hname : name ∈ m.names) :
    add t k name = .error .checkFailed := by
  rw [maps, getElem?_map] at hm
  obtain ⟨n, hn, rfl⟩ := Option.map_eq_some_iff.1 hm
  rw [add, hn]
  exact if_neg fun hfree => lookup_eq_notFound_iff.1 hfree hname

theorem Sound.call (h : Sound t) (c : Nat × Option String) :
    Sound (call t c) ∧ maps t <+: maps (call t c) := by
  unfold Trie.call
  cases hm : (maps t)[c.1]? with
  | none =>
    rw [maps, getElem?_map, Option.map_eq_none_iff] at hm
    rw [Trie.add, hm]
    exact ⟨h, prefix_refl _⟩
  | some m =>
    by_cases hname : c.2 ∈ m.names
    · rw [add_of_mem hm hname]
      exact ⟨h, prefix_refl _⟩
    · obtain ⟨id, t', hadd, hsound, hprefix, -⟩ := h.add hm hname
      rw [hadd]
      exact ⟨hsound, hprefix⟩

theorem Sound.calls (h : Sound t) (calls : List (Nat × Option String)) :
    Sound (calls.foldl Trie.call t) ∧ maps t <+: maps (calls.foldl Trie.call t) := by
  induction calls generalizing t with
  | nil => exact ⟨h, prefix_refl _⟩
  | cons c calls ih =>
    obtain ⟨hsound, hprefix⟩ := h.call c
    exact ⟨(ih hsound).1, hprefix.trans (ih hsound).2⟩

theorem sound_start : Sound [{ map := .root }] where
  distinct := by simp [maps]
  nodup m hm := by
    rw [mem_singleton.1 hm]
    exact nodup_nil
  closed h := by cases mem_singleton.1 h
  forward h _ _ hid := by
    rw [mem_singleton.1 (mem_of_getElem? h)] at hid
    cases hid
  complete _ _ _ h := by cases mem_singleton.1 h

variable {calls : List (Nat × Option String)} {names : List (Option String)} {id : Nat}

theorem sound_after (calls : List (Nat × Option String)) : Sound (after calls) :=
  (sound_start.calls calls).1

theorem getElem?_after_append (later : List (Nat × Option String)) {m : SymbolMap}
    (h : (maps (after calls))[id]? = some m) : (maps (after (calls ++ later)))[id]? = some m := by
  obtain ⟨-, rest, hrest⟩ := (sound_after calls).calls later
  rw [after, foldl_append, ← after, ← hrest,
    List.getElem?_append_left (List.getElem?_eq_some_iff.1 h).1]
  exact h

/-- The map that is reached is the one that scopes get by adding the names. -/
theorem Reaches.map (h : Reaches calls names id) : ∃ m, (maps (after calls))[id]? = some m ∧
    m.names = names ∧ names.foldlM SymbolMap.add .root = .ok m := by
  induction h with
  | root => exact ⟨.root, rfl, rfl, rfl⟩
  | later c _ ih =>
    obtain ⟨m, hm, hnames⟩ := ih
    exact ⟨m, getElem?_after_append [c] hm, hnames⟩
  | @add calls _ id name id' t _ hadd ih =>
    obtain ⟨m, hm, rfl, hfold⟩ := ih
    by_cases hname : name ∈ m.names
    · rw [add_of_mem hm hname] at hadd
      cases hadd
    · obtain ⟨_, _, hadd', -, -, hid⟩ := (sound_after calls).add hm hname
      cases hadd.symm.trans hadd'
      refine ⟨.node m name, ?_, rfl, ?_⟩
      · rw [after, foldl_append, ← after, foldl_cons, call, hadd]
        exact hid
      · have hfree := lookup_eq_notFound_iff.2 hname
        simp [foldlM_append, hfold, SymbolMap.add, hfree, bind, Except.bind, pure, Except.pure]

/-- However names are added to the shared maps, whoever has added some names is at a map
that is an ordered set of these: it knows them by their numbers and no others, and stays
what it is, whatever is added later.  The same map is reached by adding the same names in
the same order only.  One more name can be added exactly if it is not among them. -/
theorem shared_maps (h : Reaches calls names id) :
    (∃ m, names.foldlM SymbolMap.add .root = .ok m ∧
      (∀ later, (maps (after (calls ++ later)))[id]? = some m) ∧ m.size = names.length ∧
      (∀ (i : Nat) name, names[i]? = some name → m.lookup name = i) ∧
      ∀ name, name ∉ names → m.lookup name = notFound) ∧
    names.Nodup ∧
    (∀ names' id', Reaches calls names' id' → (id = id' ↔ names = names')) ∧
    ∀ name, (name ∈ names → add (after calls) id name = .error .checkFailed) ∧
      (name ∉ names → ∃ id' t, add (after calls) id name = .ok (id', t) ∧
        Reaches (calls ++ [(id, name)]) (names ++ [name]) id') := by
  obtain ⟨m, hm, rfl, hfold⟩ := h.map
  have hsound := sound_after calls
  have hnodup := hsound.nodup m (List.mem_of_getElem? hm)
  refine ⟨⟨m, hfold, fun later => getElem?_after_append later hm, m.size_eq,
    fun i name => lookup_of_getElem? hnodup, fun name => lookup_eq_notFound_iff.2⟩, hnodup,
    fun names' id' h' => ?_, fun name => ⟨add_of_mem hm, fun hname => ?_⟩⟩
  · obtain ⟨m', hm', rfl, hfold'⟩ := h'.map
    constructor
    · rintro rfl
      rw [Option.some.inj (hm.symm.trans hm')]
    · intro hnames
      rw [hnames, hfold'] at hfold
      cases hfold
      have hlt := (List.getElem?_eq_some_iff.1 hm).1
      exact (List.getElem?_inj hlt hsound.distinct).1 (hm.trans hm'.symm)
  · obtain ⟨id', t, hadd, -⟩ := hsound.add hm hname
    exact ⟨id', t, hadd, h.add hadd⟩

/-- One scope adds `$a`, another one `$b` and then `$a`, and the first one `$b`: the two are
at different maps. -/
theorem shared_maps_interleaved :
    let calls := [(0, some "$a"), (0, some "$b"), (2, some "$a"), (1, some "$b")]
    Reaches calls [some "$a", some "$b"] 4 ∧ Reaches calls [some "$b", some "$a"] 3 ∧
      add (after calls) 3 (some "$a") = .error .checkFailed ∧
      ∃ m : SymbolMap, (∀ later, (maps (after (calls ++ later)))[4]? = some m) ∧
        m.lookup (some "$b") = 1 := by
  intro calls
  have ha : Reaches [(0, some "$a")] [some "$a"] 1 := Reaches.root.add rfl
  have hb : Reaches [(0, some "$a"), (0, some "$b")] [some "$b"] 2 := (Reaches.root.later _).add rfl
  have hfirst : Reaches calls [some "$a", some "$b"] 4 := ((ha.later _).later _).add rfl
  have hsecond : Reaches calls [some "$b", some "$a"] 3 := (hb.add rfl).later _
  obtain ⟨⟨m, -, hstill, -, hlookup, -⟩, -⟩ := shared_maps hfirst
  exact ⟨hfirst, hsecond, ((shared_maps hsecond).2.2.2 (some "$a")).1 (by decide), m, hstill,
    hlookup 1 _ rfl⟩

end Trie

end PageScript
