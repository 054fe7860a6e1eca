/-
Lists as dictionaries.

Seen as entries in order (`Store.elements`), lists and dictionaries are one kind of
array: to store an element puts it among the entries under the text of the key
(`exists_putMember`), as long as an integer key of a list leaves no gap.  So a list
that elements are stored into, and that becomes a dictionary on the way or not, has
the entries of a dictionary that was made of it before (`list_refines_dict`).
-/
import PageScript.Proofs.Copies
import PageScript.Proofs.Isolation

namespace PageScript

open List

/-! ### Numbers as keys -/

theorem toString_nat_inj {a b : Nat} (h : toString a = toString b) : a = b := by
  rw [Nat.toString_eq_ofList_toDigits, Nat.toString_eq_ofList_toDigits] at h
  have hdigits := String.ofList_inj.1 h
  rw [← Nat.ofDigitChars_ten_toDigits (n := a), hdigits, Nat.ofDigitChars_ten_toDigits]

namespace Entries

variable {α : Type} {es : Entries α} {key : String} {v : α}

theorem nodup_keys_put (h : es.keys.Nodup) : (es.put key v).keys.Nodup := by
  induction es with
  | nil => exact nodup_singleton key
  | cons e es ih =>
    obtain ⟨k, old⟩ := e
    obtain ⟨hk, hes⟩ := nodup_cons.1 h
    rw [put]
    by_cases hkey : k = key
    · rw [if_pos hkey]
      exact nodup_cons.2 ⟨hk, hes⟩
    · rw [if_neg hkey]
      refine nodup_cons.2 ⟨fun hmem => ?_, ih hes⟩
      exact (mem_keys_put hmem).elim hk hkey

theorem nodup_keys_putAll {new : List (String × α)} (h : es.keys.Nodup) :
    (es.putAll new).keys.Nodup := by
  induction new generalizing es with
  | nil => exact h
  | cons e new ih => exact ih (nodup_keys_put h)

end Entries

namespace Store

theorem length_numberedFrom (n : Nat) (vs : List Value) : (numberedFrom n vs).length = vs.length := by
  induction vs generalizing n with
  | nil => rfl
  | cons v vs ih => exact congrArg (· + 1) (ih (n + 1))

theorem length_listEntries (items : Array Value) : (listEntries items).length = items.size := by
  rw [listEntries, length_numberedFrom, Array.length_toList]

theorem getElem?_numberedFrom (n i : Nat) (vs : List Value) :
    (numberedFrom n vs)[i]? = vs[i]?.map fun v => (toString (n + i), v) := by
  induction vs generalizing n i with
  | nil => rfl
  | cons v vs ih =>
    cases i with
    | zero => rfl
    | succ i =>
      rw [numberedFrom, getElem?_cons_succ, getElem?_cons_succ, ih]
      rw [Nat.add_right_comm, Nat.add_assoc]

theorem mem_keys_numberedFrom {n : Nat} {vs : List Value} {k : String}
    (h : k ∈ (numberedFrom n vs).keys) : ∃ i < vs.length, k = toString (n + i) := by
  obtain ⟨e, he, rfl⟩ := mem_map.1 h
  obtain ⟨i, hi⟩ := mem_iff_getElem?.1 he
  rw [getElem?_numberedFrom] at hi
  obtain ⟨v, hv, rfl⟩ := Option.map_eq_some_iff.1 hi
  exact ⟨i, (List.getElem?_eq_some_iff.1 hv).1, rfl⟩

theorem nodup_keys_numberedFrom (n : Nat) (vs : List Value) : (numberedFrom n vs).keys.Nodup := by
  induction vs generalizing n with
  | nil => exact nodup_nil
  | cons v vs ih =>
    refine nodup_cons.2 ⟨fun hmem => ?_, ih (n + 1)⟩
    obtain ⟨i, -, hi⟩ := mem_keys_numberedFrom hmem
    have hn := toString_nat_inj hi
    omega

theorem nodup_keys_listEntries (items : Array Value) : (listEntries items).keys.Nodup :=
  nodup_keys_numberedFrom 0 items.toList

theorem put_numberedFrom_of_lt {n i : Nat} {vs : List Value} (v : Value) (hi : i < vs.length) :
    (numberedFrom n vs).put (toString (n + i)) v = numberedFrom n (vs.set i v) := by
  induction vs generalizing n i with
  | nil => exact absurd hi (Nat.not_lt_zero i)
  | cons w vs ih =>
    cases i with
    | zero => exact if_pos rfl
    | succ i =>
      have hne : toString n ≠ toString (n + (i + 1)) := fun h => by
        have hn := toString_nat_inj h
        omega
      rw [numberedFrom, Entries.put, if_neg hne, set_cons_succ, numberedFrom,
        ← ih (Nat.lt_of_succ_lt_succ hi), Nat.add_right_comm, Nat.add_assoc]

theorem numberedFrom_append (n : Nat) (vs ws : List Value) :
    numberedFrom n (vs ++ ws) = numberedFrom n vs ++ numberedFrom (n + vs.length) ws := by
  induction vs generalizing n with
  | nil => rfl
  | cons v vs ih =>
    rw [cons_append, numberedFrom, numberedFrom, ih, length_cons, cons_append,
      Nat.add_right_comm, Nat.add_assoc]

theorem put_numberedFrom_length (n : Nat) (vs : List Value) (v : Value) :
    (numberedFrom n vs).put (toString (n + vs.length)) v = numberedFrom n (vs ++ [v]) := by
  rw [numberedFrom_append, Entries.put_of_not_mem]
  · rfl
  · intro hmem
    obtain ⟨i, hlt, hi⟩ := mem_keys_numberedFrom hmem
    have hn := toString_nat_inj hi
    omega

theorem exists_putItem {items : Array Value} {i : Int} (v : Value) (hi : 0 ≤ i)
    (hle : i ≤ items.size) : ∃ items', putItem items i v = .ok items' ∧
      listEntries items' = (listEntries items).put (toString i) v := by
  obtain ⟨n, rfl⟩ := Int.eq_ofNat_of_zero_le hi
  have htext : toString (n : Int) = toString n := rfl
  rcases Nat.lt_or_eq_of_le (Int.ofNat_le.1 hle) with hlt | rfl
  · refine ⟨items.setIfInBounds n v, ?_, ?_⟩
    · have hplace : place? items.size (n : Int) = some n := by simp [place?, hlt]
      rw [putItem, hplace]
    · have hput := put_numberedFrom_of_lt (n := 0) v (show n < items.toList.length by simpa using hlt)
      rw [Nat.zero_add] at hput
      rw [listEntries, listEntries, htext, hput, Array.toList_setIfInBounds]
  · refine ⟨items.push v, putItem_size items v, ?_⟩
    have hput := put_numberedFrom_length 0 items.toList v
    rw [Nat.zero_add, Array.length_toList] at hput
    rw [listEntries, listEntries, htext, hput, Array.toList_push]

/-! ### Storing elements -/

def HasArray (s : Store) : Value → Prop
  | .list id => id < s.lists.size
  | .dict id => id < s.dicts.size
  | _ => False

def keyText (s : Store) (key : Value) : String :=
  match s.textOf key with
  | .ok k => k
  | .error _ => ""

theorem textOf_of_isScript {s : Store} {key : Value} (h : key.isScript = true) :
    s.textOf key = .ok (s.keyText key) := by
  cases key with
  | unset | datum d => cases h
  | _ => rfl

theorem keyText_congr {s t : Store} (h : t.builders = s.builders) (key : Value) :
    t.keyText key = s.keyText key := by
  have htext : t.textOf key = s.textOf key := by
    cases key with
    | concat id n =>
      rw [textOf, textOf, builder, builder, h]
    | _ => rfl
  rw [keyText, keyText, htext]

/-- An array with some entries has come of another one.  It is the same array
or a new one, and all other arrays have the entries they had. -/
structure Gives (s : Store) (v : Value) (t : Store) (w : Value) (es : Entries Value) : Prop where
  has : t.HasArray w
  elements : t.elements w = es
  builders : t.builders = s.builders
  same : w = v ∨ ¬s.HasArray w
  keeps : ∀ u, s.HasArray u → t.HasArray u
  others : ∀ u, s.HasArray u → u ≠ v → t.elements u = s.elements u

namespace Gives

variable {s t u : Store} {v w x : Value} {es fs : Entries Value}

theorem refl (h : s.HasArray v) : s.Gives v s v (s.elements v) :=
  ⟨h, rfl, rfl, .inl rfl, fun _ => id, fun _ _ _ => rfl⟩

theorem trans (h : s.Gives v t w es) (h' : t.Gives w u x fs) : s.Gives v u x fs where
  has := h'.has
  elements := h'.elements
  builders := h'.builders.trans h.builders
  same := by
    rcases h'.same with rfl | hnew
    · exact h.same
    · exact .inr fun hx => hnew (h.keeps x hx)
  keeps y hy := h'.keeps y (h.keeps y hy)
  others y hy hne := by
    -- What was there is not an array that is new.
    have hyw : y ≠ w := by
      rintro rfl
      exact h.same.elim hne fun hnew => hnew hy
    rw [h'.others y (h.keeps y hy) hyw, h.others y hy hne]

end Gives

variable {s t : Store} {v w key element : Value}

theorem gives_setList {id : Nat} {items : Array Value} (hid : id < s.lists.size) :
    s.Gives (.list id) (s.setList id items) (.list id) (listEntries items) where
  has := by simpa [HasArray, setList] using hid
  elements := by
    simp [elements, Store.list, setList, Array.getD_eq_getD_getElem?, hid]
  builders := rfl
  same := .inl rfl
  keeps u hu := by
    cases u with
    | list j => simpa [HasArray, setList] using hu
    | dict j => exact hu
    | _ => exact hu
  others u hu hne := by
    cases u with
    | list j =>
      have hj : id ≠ j := fun h => hne (h ▸ rfl)
      simp only [elements, Store.list, setList, getD_setIfInBounds_of_ne hj]
    | _ => rfl

theorem gives_newDict {es : Entries Value} : s.Gives v (s.newDict es).2 (s.newDict es).1 es where
  has := by simp [HasArray, newDict]
  elements := by simp [elements, Store.dict, newDict]
  builders := rfl
  same := .inr (Nat.lt_irrefl _)
  keeps u hu := by
    cases u with
    | dict j => exact Nat.lt_of_lt_of_le hu (by simp [newDict])
    | _ => exact hu
  others u hu _ := by
    cases u with
    | dict j => exact getD_push_of_lt hu ..
    | _ => rfl

theorem gives_setDict {id : Nat} {es : Entries Value} (hid : id < s.dicts.size) :
    s.Gives (.dict id) (s.setDict id es) (.dict id) es where
  has := by simpa [HasArray, setDict] using hid
  elements := by
    simp [elements, Store.dict, setDict, Array.getD_eq_getD_getElem?, hid]
  builders := rfl
  same := .inl rfl
  keeps u hu := by
    cases u with
    | dict j => simpa [HasArray, setDict] using hu
    | _ => exact hu
  others u hu hne := by
    cases u with
    | dict j =>
      have hj : id ≠ j := fun h => hne (h ▸ rfl)
      simp only [elements, Store.dict, setDict, getD_setIfInBounds_of_ne hj]
    | _ => rfl

/-- A list can take an element at this key without a gap. -/
def Takes (s : Store) (v key : Value) : Prop :=
  ∀ id i, v = .list id → key = .int i → 0 ≤ i ∧ i ≤ (s.list id).size

theorem exists_putMember (hv : s.HasArray v) (hscript : key.isScript = true) (htakes : s.Takes v key)
    (element : Value) : ∃ w t, s.putMember v key element = .ok (w, t) ∧
      s.Gives v t w ((s.elements v).put (s.keyText key) element) := by
  have htext := textOf_of_isScript (s := s) hscript
  cases v with
  | dict id =>
    refine ⟨_, _, ?_, gives_setDict hv⟩
    rw [putMember, htext]
    rfl
  | list id =>
    by_cases hint : ∃ i, key = .int i
    · obtain ⟨i, rfl⟩ := hint
      obtain ⟨hi, hle⟩ := htakes id i rfl rfl
      obtain ⟨items, hput, hentries⟩ := exists_putItem element hi hle
      have hgives : s.Gives (.list id) (s.setList id items) (.list id) (listEntries items) :=
        gives_setList hv
      rw [hentries] at hgives
      refine ⟨_, _, ?_, hgives⟩
      rw [putMember, hput]
      rfl
    · refine ⟨_, _, ?_, gives_newDict⟩
      cases key with
      | int i => exact absurd ⟨i, rfl⟩ hint
      | _ =>
        simp only [putMember, htext]
        rfl
  | _ => exact absurd hv id

/-- Stores elements one after the other, each into the array that the one
before gave. -/
def putMembers (s : Store) (v : Value) : List (Value × Value) → Except Fault (Value × Store)
  | [] => .ok (v, s)
  | (key, element) :: rest => do
    let (w, t) ← s.putMember v key element
    t.putMembers w rest

/-- As long as the array is a list, it can take each of the elements without a
gap. -/
def TakesAll (s : Store) (v : Value) : List (Value × Value) → Prop
  | [] => True
  | (key, element) :: rest => s.Takes v key ∧
      ∀ w t, s.putMember v key element = .ok (w, t) → t.TakesAll w rest

theorem takesAll_dict (s : Store) (id : Nat) (puts : List (Value × Value)) :
    s.TakesAll (.dict id) puts := by
  induction puts generalizing s with
  | nil => trivial
  | cons p puts ih =>
    refine ⟨nofun, fun w t hput => ?_⟩
    obtain ⟨k, -, hput⟩ := ok_of_bind hput
    cases hput
    exact ih _

theorem eq_of_putMembers_dict {id : Nat} {puts : List (Value × Value)}
    (h : s.putMembers (.dict id) puts = .ok (w, t)) : w = .dict id := by
  induction puts generalizing s with
  | nil =>
    cases h
    rfl
  | cons p puts ih =>
    obtain ⟨⟨x, u⟩, hput, h⟩ := ok_of_bind h
    obtain ⟨k, -, hput⟩ := ok_of_bind hput
    cases hput
    exact ih h

theorem exists_putMembers {puts : List (Value × Value)} (hv : s.HasArray v)
    (hscript : ∀ p ∈ puts, p.1.isScript = true) (htakes : s.TakesAll v puts) :
    ∃ w t, s.putMembers v puts = .ok (w, t) ∧
      s.Gives v t w ((s.elements v).putAll (puts.map fun p => (s.keyText p.1, p.2))) := by
  induction puts generalizing s v with
  | nil => exact ⟨v, s, rfl, .refl hv⟩
  | cons p puts ih =>
    obtain ⟨key, element⟩ := p
    obtain ⟨hkey, hrest⟩ := forall_mem_cons.1 hscript
    obtain ⟨w, t, hput, hgives⟩ := exists_putMember hv hkey htakes.1 element
    obtain ⟨x, u, hputs, hgives'⟩ := ih hgives.has hrest (htakes.2 w t hput)
    refine ⟨x, u, ?_, ?_⟩
    · rw [putMembers, hput]
      exact hputs
    · -- Texts under construction stay as they are, so keys have the same text all along.
      simp only [keyText_congr hgives.builders, hgives.elements] at hgives'
      exact hgives.trans hgives'

/-! ### What is seen of an array -/

theorem lengthOf_eq (hv : s.HasArray v) : s.lengthOf v = .ok (s.elements v).length := by
  cases v with
  | list id => exact congrArg Except.ok (length_listEntries _).symm
  | dict id => rfl
  | _ => exact absurd hv id

theorem fullTextOf_congr (hv : s.HasArray v) (hw : s.HasArray w)
    (h : s.elements v = s.elements w) : s.fullTextOf v = s.fullTextOf w := by
  have harray : ∀ u, s.HasArray u → s.fullTextOf u
      = entryTexts s.fullTextOf (s.elements u) >>= fun ts => pure (arrayText ts) := by
    intro u hu
    rw [fullTextOf_eq]
    cases u with
    | list id => rfl
    | dict id => rfl
    | _ => exact absurd hu id
  rw [harray v hv, harray w hw, h]

/-- The keys and elements that an iteration gives in its next `n` rounds. -/
def drain (s : Store) (id : Nat) : Nat → Except Fault (Entries Value)
  | 0 => .ok []
  | n + 1 => do
    let key := currentKey (s.cursor id)
    let (element, t) ← s.nextElement id
    return (key, element) :: (← t.drain id n)

/-- The keys and elements that a new iteration over an array gives until it is
at its end. -/
def visits (s : Store) (v : Value) : Except Fault (Entries Value) := do
  match ← s.iterate v with
  | (.cursor id, t) => t.drain id ((t.cursor id).stop - (t.cursor id).index)
  | _ => throw .noOperation

theorem drain_eq {id n : Nat} {es : Entries Value} (hnodup : es.keys.Nodup)
    (hid : id < s.cursors.size) (hdict : s.dict (s.cursor id).dict = es)
    (hkeys : (s.cursor id).keys = es.keys) (hindex : (s.cursor id).index + n = es.length) :
    s.drain id n = .ok (es.drop (s.cursor id).index) := by
  induction n generalizing s with
  | zero =>
    rw [Nat.add_zero] at hindex
    rw [drain, hindex, drop_length]
  | succ n ih =>
    have hlt : (s.cursor id).index < es.length := by omega
    have hkey : currentKey (s.cursor id) = es[(s.cursor id).index].1 := by
      simp [currentKey, hkeys, Entries.keys, hlt]
    have helement : s.currentElement (s.cursor id) = .ok es[(s.cursor id).index].2 := by
      have hget : es.get? es[(s.cursor id).index].1 = some es[(s.cursor id).index].2 :=
        lookup_of_nodup hnodup (getElem_mem hlt)
      rw [currentElement, hdict, hkey, hget]
    -- The round leaves the cursor one further, and nothing else changed.
    have hcursor : (s.setCursor id { s.cursor id with index := (s.cursor id).index + 1 }).cursor id
        = { s.cursor id with index := (s.cursor id).index + 1 } := by
      simp [cursor, setCursor, Array.getD_eq_getD_getElem?, hid]
    have hnext : s.nextElement id = .ok (es[(s.cursor id).index].2,
        s.setCursor id { s.cursor id with index := (s.cursor id).index + 1 }) := by
      rw [nextElement]
      dsimp only
      rw [helement]
      rfl
    have hrest := ih (s := s.setCursor id { s.cursor id with index := (s.cursor id).index + 1 })
      (by simpa [setCursor] using hid) (by rw [hcursor]; exact hdict) (by rw [hcursor]; exact hkeys)
      (by rw [hcursor]; dsimp only; omega)
    rw [hcursor] at hrest
    rw [drain, hnext, hkey]
    simp only [bind, Except.bind, hrest, pure, Except.pure]
    rw [drop_eq_getElem_cons hlt]

theorem drain_iterateDict {id : Nat} (hnodup : (s.dict id).keys.Nodup) :
    (s.iterateDict id).2.drain s.cursors.size
      (((s.iterateDict id).2.cursor s.cursors.size).stop
        - ((s.iterateDict id).2.cursor s.cursors.size).index) = .ok (s.dict id) := by
  have hcursor : (s.iterateDict id).2.cursor s.cursors.size
      = { dict := id, keys := (s.dict id).keys, index := 0, stop := (s.dict id).keys.length } := by
    simp [iterateDict, newCursor, cursor]
  have hid : s.cursors.size < (s.iterateDict id).2.cursors.size := by simp [iterateDict, newCursor]
  have hlength : (s.dict id).keys.length = (s.dict id).length := length_map _
  have hdrain := drain_eq (n := (s.dict id).keys.length) hnodup hid
    (by rw [hcursor]; rfl) (by rw [hcursor]) (by rw [hcursor, hlength, Nat.zero_add])
  rw [hcursor] at hdrain ⊢
  exact hdrain

theorem visits_eq (hv : s.HasArray v) (hnodup : (s.elements v).keys.Nodup) :
    s.visits v = .ok (s.elements v) := by
  cases v with
  | dict id => exact drain_iterateDict hnodup
  | list id =>
    have hcopy : (s.newDict (listEntries (s.list id))).2.dict s.dicts.size
        = listEntries (s.list id) := by simp [Store.dict, newDict]
    have hdrain := drain_iterateDict (s := (s.newDict (listEntries (s.list id))).2)
      (by rw [hcopy]; exact hnodup)
    rw [hcopy] at hdrain
    exact hdrain
  | _ => exact absurd hv id

theorem getMember_number {i j k : Nat} (h : s.elements (.list i) = s.dict j)
    (hk : k < (s.list i).size) :
    ∃ e, s.getMember (.list i) (.int k) = .ok e ∧ s.getMember (.dict j) (.int k) = .ok e := by
  refine ⟨(s.list i)[k], ?_, ?_⟩
  · simp [getMember, place?, hk]
  · have hentry : (listEntries (s.list i))[k]? = some (toString k, (s.list i)[k]) := by
      rw [listEntries, getElem?_numberedFrom, Nat.zero_add]
      simp [hk]
    have hget : (s.dict j).get? (toString k) = some (s.list i)[k] := by
      rw [← h]
      exact lookup_of_nodup (nodup_keys_listEntries _) (mem_of_getElem? hentry)
    have htext : s.textOf (.int k) = .ok (toString k) := rfl
    rw [getMember, htext]
    simp only [bind, Except.bind, hget]
    rfl

end Store

open Store in
/-- Lists refine dictionaries.  A list is made into a dictionary, and then
elements are stored one after the other, first into the list, as long as it is
one without a gap, and then into the dictionary.  Both succeed, and the array
that came of the list has the same entries in the same order as the dictionary,
the same length and the same full text, and the same keys and elements are met
along it; and if it is a list still, its items are found under their numbers in
the dictionary. -/
theorem list_refines_dict {s s₁ : Store} {id : Nat} {d : Value} {puts : List (Value × Value)}
    (hid : id < s.lists.size) (hdict : s.toDict (.list id) = .ok (d, s₁))
    (hscript : ∀ p ∈ puts, p.1.isScript = true) (htakes : s₁.TakesAll (.list id) puts) :
    ∃ r s₂ s₃, s₁.putMembers (.list id) puts = .ok (r, s₂) ∧ s₂.putMembers d puts = .ok (d, s₃) ∧
      s₃.elements r = s₃.elements d ∧
      (∀ r' s₄, s₃.toDict r = .ok (r', s₄) → s₄.elements r' = s₃.elements d) ∧
      (∃ n, s₃.lengthOf r = .ok n ∧ s₃.lengthOf d = .ok n) ∧
      (∃ es, s₃.visits r = .ok es ∧ s₃.visits d = .ok es) ∧
      s₃.fullTextOf r = s₃.fullTextOf d ∧
      ∀ i, r = .list i → ∀ k : Nat, k < (s₃.list i).size →
        ∃ e, s₃.getMember r (.int k) = .ok e ∧ s₃.getMember d (.int k) = .ok e := by
  cases hdict
  have hmade : s.Gives (.list id) (s.newDict (listEntries (s.list id))).2
      (s.newDict (listEntries (s.list id))).1 (listEntries (s.list id)) := gives_newDict
  have hlist := hmade.keeps (.list id) hid
  obtain ⟨r, s₂, hfirst, hr⟩ := exists_putMembers hlist hscript htakes
  have hd := hr.keeps _ hmade.has
  obtain ⟨d', s₃, hsecond, hd'⟩ := exists_putMembers hd hscript (takesAll_dict _ _ _)
  obtain rfl := eq_of_putMembers_dict hsecond
  -- The dictionary was there before, so it is none of the arrays that came of the list.
  have hne : r ≠ .dict s.dicts.size := by
    rintro rfl
    exact hr.same.elim nofun fun hnew => hnew hmade.has
  have helements : s₃.elements r = s₃.elements (.dict s.dicts.size) := by
    rw [hd'.others r hr.has hne, hr.elements, hd'.elements, hr.others _ hmade.has nofun,
      hmade.elements]
    simp only [keyText_congr hr.builders]
    rfl
  have hnodup : (s₃.elements (.dict s.dicts.size)).keys.Nodup := by
    rw [hd'.elements, hr.others _ hmade.has nofun, hmade.elements]
    exact Entries.nodup_keys_putAll (nodup_keys_listEntries _)
  have hr₃ := hd'.keeps r hr.has
  refine ⟨r, s₂, s₃, hfirst, hsecond, helements, fun r' s₄ hconvert => ?_, ⟨_, lengthOf_eq hr₃, ?_⟩,
    ⟨_, visits_eq hr₃ ?_, ?_⟩, fullTextOf_congr hr₃ hd'.has helements, ?_⟩
  · rw [← helements]
    cases r with
    | list i =>
      cases hconvert
      exact (gives_newDict (v := .list i)).elements
    | _ => cases hconvert
  · rw [lengthOf_eq hd'.has, helements]
  · rw [helements]
    exact hnodup
  · rw [visits_eq hd'.has hnodup, helements]
  · rintro i rfl k hk
    exact getMember_number helements hk

def oneItem : Store := { lists := #[#[.int 7]] }

/-- An item is added at the end, then the text of its number turns the list into
a dictionary and replaces the item, and then any key will do. -/
def turningPuts : List (Value × Value) :=
  [(.int 1, .null), (.text "1", .bool true), (.int (-5), .int 8)]

/-- The list became a dictionary with three entries. -/
theorem list_refines_dict_turned :
    ∃ s₁ r s₂ s₃, oneItem.toDict (.list 0) = .ok (.dict 0, s₁) ∧
      s₁.putMembers (.list 0) turningPuts = .ok (r, s₂) ∧ r = .dict 1 ∧
      s₂.putMembers (.dict 0) turningPuts = .ok (.dict 0, s₃) ∧
      s₃.elements r = s₃.elements (.dict 0) ∧
      (s₃.elements (.dict 0)).keys = ["0", "1", "-5"] ∧
      s₃.fullTextOf r = s₃.fullTextOf (.dict 0) := by
  have htakes : (oneItem.newDict (Store.listEntries (oneItem.list 0))).2.TakesAll (.list 0)
      turningPuts := by
    refine ⟨fun id i hid hi => ?_, fun w t hput => ⟨fun id i hid hi => ?_, fun x u hput' => ?_⟩⟩
    · cases hid
      cases hi
      exact ⟨by decide, by decide⟩
    · cases hi
    · cases hput
      cases hput'
      exact Store.takesAll_dict _ _ _
  obtain ⟨r, s₂, s₃, hfirst, hsecond, helements, -, -, -, htext, -⟩ :=
    list_refines_dict (s := oneItem) (by decide) rfl (by decide) htakes
  have hr : r = .dict 1 := by
    cases hfirst
    rfl
  refine ⟨_, r, s₂, s₃, rfl, hfirst, hr, hsecond, helements, ?_, htext⟩
  cases hfirst
  cases hsecond
  decide

end PageScript
