/-
Copies of values.

Working on the copy of an array (`Store.Reworks`) reaches the copy, what is made anew,
and whatever the copied elements lead to.  If no element can change, nothing is reached
that was there before (`Store.Spares`); if one can, it can be made to show more.  So a
copy is isolated just if what was copied is flat (`Store.Copied.fullTextOf_kept_iff`).
-/
import PageScript.Proofs.Emission
import PageScript.Proofs.FullTexts

namespace PageScript

open List

/-- Something behind the value can change. -/
def Value.isMutable : Value → Bool
  | .list _ | .dict _ | .concat _ _ | .ref _ | .cursor _ => true
  | _ => false

/-- The value is none that changes, or an array or a text that is not in the
store. -/
def Value.Beyond (s : Store) : Value → Prop
  | .list id => s.lists.size ≤ id
  | .dict id => s.dicts.size ≤ id
  | .concat id _ => s.builders.size ≤ id
  | .ref _ | .cursor _ => False
  | _ => True

theorem Value.Beyond.of_isMutable {s : Store} {v : Value} (h : v.isMutable = false) :
    v.Beyond s := by
  cases v with
  | list | dict | concat | ref | cursor => cases h
  | _ => trivial

def Value.IsIn (s : Store) : Value → Prop
  | .list id => id < s.lists.size
  | .dict id => id < s.dicts.size
  | .concat id _ => id < s.builders.size
  | _ => False

namespace Store

variable {s t u : Store} {v w p : Value} {own : List Value}

/-! ### Working on a value -/

/-- What comes of working on a value: with the value at hand, further values are
taken that never change, elements are read and stored, texts are joined and
lists are put together, all with values at hand. -/
inductive Reworks (s : Store) (v : Value) : List Value → Store → Prop where
  | start : Reworks s v [v] s
  | literal {own : List Value} {t : Store} {w : Value} : Reworks s v own t →
      w.isMutable = false → Reworks s v (w :: own) t
  | read {own : List Value} {t : Store} {array key w : Value} : Reworks s v own t →
      array ∈ own → key ∈ own → t.getMember array key = .ok w → Reworks s v (w :: own) t
  | write {own : List Value} {t u : Store} {array key element w : Value} : Reworks s v own t →
      array ∈ own → key ∈ own → element ∈ own → t.putMember array key element = .ok (w, u) →
      Reworks s v (w :: own) u
  | join {own : List Value} {t u : Store} {left right w : Value} : Reworks s v own t →
      left ∈ own → right ∈ own → t.concatenate left right = .ok (w, u) → Reworks s v (w :: own) u
  | collect {own : List Value} {t : Store} {items : List Value} : Reworks s v own t →
      (∀ w ∈ items, w ∈ own) →
      Reworks s v ((t.newList items.toArray).1 :: own) (t.newList items.toArray).2

def IsFlat (s : Store) (v : Value) : Prop := ∀ e ∈ s.elements v, e.2.isMutable = false

instance (s : Store) (v : Value) : Decidable (s.IsFlat v) :=
  inferInstanceAs (Decidable (∀ e ∈ s.elements v, e.2.isMutable = false))

/-! ### What is spared -/

/-- All of the first store is as it was, and what is new leads to nothing but
what is new. -/
structure Spares (s t : Store) : Prop extends Extends s t where
  refs : t.refs = s.refs
  lists_le : s.lists.size ≤ t.lists.size
  dicts_le : s.dicts.size ≤ t.dicts.size
  builders_le : s.builders.size ≤ t.builders.size
  element : ∀ {v : Value}, v.Beyond s → ∀ e ∈ t.elements v, e.2.Beyond s

theorem getD_push_of_lt {α : Type} {xs : Array α} {i : Nat} (h : i < xs.size) (x d : α) :
    (xs.push x).getD i d = xs.getD i d := by
  simp [Array.getD_eq_getD_getElem?, Array.getElem?_push, h.ne]

theorem getD_setIfInBounds_of_ne {α : Type} {xs : Array α} {i j : Nat} (h : i ≠ j) (x d : α) :
    (xs.setIfInBounds i x).getD j d = xs.getD j d := by
  simp [Array.getD_eq_getD_getElem?, Array.getElem?_setIfInBounds_ne h]

namespace Spares

theorem refl (s : Store) : s.Spares s where
  list _ := rfl
  dict _ := rfl
  builder _ := rfl
  refs := rfl
  lists_le := Nat.le_refl _
  dicts_le := Nat.le_refl _
  builders_le := Nat.le_refl _
  element {v} hv e he := by
    -- Beyond the store there are no elements.
    cases v with
    | list id =>
      rw [elements, list_of_le hv] at he
      cases he
    | dict id =>
      rw [elements, dict_of_le hv] at he
      cases he
    | _ => cases he

section

variable (h : s.Spares t)

include h

theorem item {id : Nat} (hid : s.lists.size ≤ id) (hw : w ∈ t.list id) : w.Beyond s := by
  obtain ⟨k, hk⟩ := exists_mem_listEntries hw
  exact h.element (v := .list id) hid _ hk

theorem newList {items : Array Value} (hitems : ∀ v ∈ items, v.Beyond s) :
    s.Spares (t.newList items).2 :=
  { h with
    list := fun hid => (getD_push_of_lt (Nat.lt_of_lt_of_le hid h.lists_le) ..).trans (h.list hid)
    lists_le := h.lists_le.trans (by simp [Store.newList])
    element := by
      intro v hv e he
      cases v with
      | list id =>
        rcases of_mem_newList (mem_listEntries he) with hold | hnew
        · exact h.item hv hold
        · exact hitems _ hnew
      | _ => exact h.element hv e he }

theorem newDict {es : Entries Value} (hentries : ∀ e ∈ es, e.2.Beyond s) :
    s.Spares (t.newDict es).2 :=
  { h with
    dict := fun hid => (getD_push_of_lt (Nat.lt_of_lt_of_le hid h.dicts_le) ..).trans (h.dict hid)
    dicts_le := h.dicts_le.trans (by simp [Store.newDict])
    element := by
      intro v hv e he
      cases v with
      | dict id =>
        exact (of_mem_newDict he).elim (h.element hv e) (hentries e)
      | _ => exact h.element hv e he }

theorem setList {id : Nat} (hid : s.lists.size ≤ id) {items : Array Value}
    (hitems : ∀ v ∈ items, v.Beyond s) : s.Spares (t.setList id items) :=
  { h with
    list := fun hlt => (getD_setIfInBounds_of_ne (by omega) ..).trans (h.list hlt)
    lists_le := h.lists_le.trans (by simp [Store.setList])
    element := by
      intro v hv e he
      cases v with
      | list i =>
        rcases of_mem_setList (mem_listEntries he) with hold | hnew
        · exact h.item hv hold
        · exact hitems _ hnew
      | _ => exact h.element hv e he }

theorem setDict {id : Nat} (hid : s.dicts.size ≤ id) {es : Entries Value}
    (hentries : ∀ e ∈ es, e.2.Beyond s) : s.Spares (t.setDict id es) :=
  { h with
    dict := fun hlt => (getD_setIfInBounds_of_ne (by omega) ..).trans (h.dict hlt)
    dicts_le := h.dicts_le.trans (by simp [Store.setDict])
    element := by
      intro v hv e he
      cases v with
      | dict i =>
        exact (of_mem_setDict he).elim (h.element hv e) (hentries e)
      | _ => exact h.element hv e he }

theorem getMember {array key : Value} (harray : array.Beyond s)
    (hget : t.getMember array key = .ok w) : w.Beyond s := by
  rcases getMember_cases hget with ⟨x, rfl⟩ | ⟨k, helement⟩
  · trivial
  · exact h.element harray _ helement

theorem putMember {array key element : Value} (harray : array.Beyond s)
    (helement : element.Beyond s) (hput : t.putMember array key element = .ok (w, u)) :
    s.Spares u ∧ w.Beyond s := by
  cases puts_of_putMember hput with
  | list hitems =>
    refine ⟨h.setList harray fun v hv => ?_, harray⟩
    rcases hitems v hv with hv | rfl | rfl
    · exact h.item harray hv
    · exact helement
    · trivial
  | turn hentries =>
    refine ⟨h.newDict fun e he => ?_, h.dicts_le⟩
    rcases hentries e he with he | he
    · exact h.element harray e he
    · rwa [he]
  | dict hentries _ =>
    refine ⟨h.setDict harray fun e he => ?_, harray⟩
    rcases hentries e he with he | he
    · exact h.element harray e he
    · rwa [he]

theorem concatenate {left right : Value} (hleft : left.Beyond s)
    (hjoin : t.concatenate left right = .ok (w, u)) : s.Spares u ∧ w.Beyond s := by
  unfold Store.concatenate at hjoin
  split at hjoin
  · obtain ⟨x, -, hjoin⟩ := ok_of_bind hjoin
    cases hjoin
    refine ⟨{ h with builder := fun hid => ?_, builders_le := ?_ }, h.builders_le⟩
    · exact (getD_push_of_lt (Nat.lt_of_lt_of_le hid h.builders_le) ..).trans (h.builder hid)
    · exact h.builders_le.trans (by simp)
  · obtain ⟨x, -, hjoin⟩ := ok_of_bind hjoin
    cases hjoin
    refine ⟨{ h with builder := fun hid => ?_, builders_le := ?_ }, hleft⟩
    · have hne : _ ≠ _ := (Nat.lt_of_lt_of_le hid hleft).ne'
      exact (getD_setIfInBounds_of_ne hne ..).trans (h.builder hid)
    · exact h.builders_le.trans (by simp [Store.appendTo])
  · cases hjoin

end

theorem reworks (h : s.Spares t) (hp : p.Beyond s) (hworks : t.Reworks p own u) :
    s.Spares u ∧ ∀ w ∈ own, w.Beyond s := by
  induction hworks with
  | start => exact ⟨h, forall_mem_singleton.2 hp⟩
  | literal _ hw ih =>
    exact ⟨ih.1, forall_mem_cons.2 ⟨.of_isMutable hw, ih.2⟩⟩
  | read _ harray _ hget ih =>
    exact ⟨ih.1, forall_mem_cons.2 ⟨ih.1.getMember (ih.2 _ harray) hget, ih.2⟩⟩
  | write _ harray _ helement hput ih =>
    obtain ⟨hspares, hw⟩ := ih.1.putMember (ih.2 _ harray) (ih.2 _ helement) hput
    exact ⟨hspares, forall_mem_cons.2 ⟨hw, ih.2⟩⟩
  | join _ hleft _ hjoin ih =>
    obtain ⟨hspares, hw⟩ := ih.1.concatenate (ih.2 _ hleft) hjoin
    exact ⟨hspares, forall_mem_cons.2 ⟨hw, ih.2⟩⟩
  | collect _ hitems ih =>
    refine ⟨ih.1.newList fun w hw => ih.2 w (hitems w (mem_toArray.1 hw)), ?_⟩
    exact forall_mem_cons.2 ⟨ih.1.lists_le, ih.2⟩

end Spares

/-! ### Copies -/

/-- A copy: a scalar itself, or a new array with the same elements. -/
inductive Copied (s : Store) : Value → Value → Store → Prop where
  | scalar {v : Value} : v.isScalar → Copied s v v s
  | list {id : Nat} :
      Copied s (.list id) (s.newList (s.list id)).1 (s.newList (s.list id)).2
  | dict {id : Nat} :
      Copied s (.dict id) (s.newDict (s.dict id)).1 (s.newDict (s.dict id)).2

theorem Data.copy (h : s.Data v) :
    (∃ id n, v = .concat id n ∧ s.copy v = .error .noOperation) ∨
      ∃ p t, s.copy v = .ok (p, t) ∧ s.Copied v p t := by
  cases h with
  | @scalar v hv =>
    refine .inr ⟨v, s, ?_, .scalar hv⟩
    cases v with
    | null | bool | int | float | text => rfl
    | _ => cases hv
  | concat => exact .inl ⟨_, _, rfl, rfl⟩
  | list => exact .inr ⟨_, _, rfl, .list⟩
  | dict => exact .inr ⟨_, _, rfl, .dict⟩

namespace Copied

section

variable (h : s.Copied v p t)

include h

theorem elements : t.elements p = s.elements v := by
  cases h with
  | scalar => rfl
  | list => simp [Store.elements, Store.newList, Store.list]
  | dict => simp [Store.elements, Store.newDict, Store.dict]

theorem toExtends : s.Extends t := by
  cases h with
  | scalar => exact (Spares.refl s).toExtends
  | list => exact ⟨fun hid => getD_push_of_lt hid .., fun _ => rfl, fun _ => rfl⟩
  | dict => exact ⟨fun _ => rfl, fun hid => getD_push_of_lt hid .., fun _ => rfl⟩

theorem fullTextOf (hv : s.Data v) : t.fullTextOf p = s.fullTextOf v := by
  have hentries : entryTexts t.fullTextOf (t.elements p)
      = entryTexts s.fullTextOf (s.elements v) := by
    rw [h.elements]
    exact entryTexts_congr fun e he => h.toExtends.fullTextOf (hv.element he)
  have harray := congrArg (· >>= fun ts => pure (arrayText ts)) hentries
  rw [fullTextOf_eq, fullTextOf_eq s]
  cases h with
  | scalar => rfl
  | list | dict => exact harray

theorem refs : t.refs = s.refs := by
  cases h <;> rfl

theorem isIn (hw : w.IsIn s) : w.IsIn t := by
  cases h with
  | scalar => exact hw
  | list =>
    cases w with
    | list id => exact Nat.lt_of_lt_of_le hw (by simp [Store.newList])
    | _ => exact hw
  | dict =>
    cases w with
    | dict id => exact Nat.lt_of_lt_of_le hw (by simp [Store.newDict])
    | _ => exact hw

theorem keys_nodup (hv : s.Data v) {id : Nat} (hp : p = .dict id) : (t.elements p).keys.Nodup := by
  rw [h.elements]
  cases h with
  | scalar hscalar =>
    subst hp
    cases hscalar
  | list => cases hp
  | dict =>
    cases hv with
    | scalar hscalar => cases hscalar
    | dict _ hnodup _ => exact hnodup

theorem spares (hflat : s.IsFlat v) : s.Spares t ∧ p.Beyond s := by
  cases h with
  | scalar hv =>
    refine ⟨.refl s, ?_⟩
    cases v with
    | null | bool | int | float | text => trivial
    | _ => cases hv
  | list =>
    refine ⟨(Spares.refl s).newList fun w hw => ?_, Nat.le_refl _⟩
    obtain ⟨key, hkey⟩ := exists_mem_listEntries hw
    exact .of_isMutable (hflat _ hkey)
  | dict => exact ⟨(Spares.refl s).newDict fun e he => .of_isMutable (hflat e he), Nat.le_refl _⟩

end

end Copied

/-! ### Elements that change -/

theorem exists_getMember {k : String} (h : (k, w) ∈ s.elements v)
    (hkeys : ∀ id, v = .dict id → (s.elements v).keys.Nodup) :
    ∃ key, key.isMutable = false ∧ s.getMember v key = .ok w := by
  cases v with
  | list id =>
    obtain ⟨n, hn⟩ := Array.mem_iff_getElem?.1 (mem_listEntries h)
    obtain ⟨hlt, hitem⟩ := Array.getElem?_eq_some_iff.1 hn
    exact ⟨.int n, rfl, by simpa [getMember, place?, hlt] using hitem⟩
  | dict id =>
    refine ⟨.text k, rfl, ?_⟩
    have hget : (s.dict id).get? k = some w := lookup_of_nodup (hkeys id rfl) h
    simp [getMember, textOf, hget, bind, Except.bind, pure, Except.pure]
  | _ => cases h

theorem putItem_size (items : Array Value) (v : Value) :
    putItem items items.size v = .ok (items.push v) := by
  have hplace : place? items.size items.size = none := by simp [place?]
  have hge : ¬(items.size : Int) < 0 := by omega
  simp [putItem, hplace, hge, wordLimit]

theorem mem_put_self {α : Type} (es : Entries α) (key : String) (v : α) :
    (key, v) ∈ es.put key v := by
  induction es with
  | nil => exact mem_singleton.2 rfl
  | cons e es ih =>
    rw [Entries.put]
    split
    · rename_i hkey
      rw [hkey]
      exact mem_cons_self
    · exact mem_cons_of_mem _ ih

/-- An array at hand can be given any text as an element, and no other array has
to change for it. -/
theorem Reworks.insert_text (h : s.Reworks p own t) (hw : w ∈ own) (hin : w.IsIn t)
    (harray : ∀ id n, w ≠ .concat id n) (x : String) :
    ∃ own' u, s.Reworks p own' u ∧ (∀ a ≠ w, u.elements a = t.elements a) ∧
      ∃ key, (key, .text x) ∈ u.elements w := by
  have htext := h.literal (w := .text x) rfl
  cases w with
  | list id =>
    have hput : t.putMember (.list id) (.int (t.list id).size) (.text x)
        = .ok (.list id, t.setList id ((t.list id).push (.text x))) := by
      rw [putMember, putItem_size]
      rfl
    have hkey := htext.literal (w := .int (t.list id).size) rfl
    refine ⟨_, _, hkey.write (by simp [hw]) (by simp) (by simp) hput, fun a ha => ?_, ?_⟩
    · cases a with
      | list i =>
        have hne : id ≠ i := fun heq => ha (by rw [heq])
        exact congrArg listEntries (getD_setIfInBounds_of_ne hne ..)
      | _ => rfl
    · simp only [Value.IsIn] at hin
      exact exists_mem_listEntries (by simp [Store.list, Store.setList, hin])
  | dict id =>
    have hput : t.putMember (.dict id) (.text "") (.text x)
        = .ok (.dict id, t.setDict id ((t.dict id).put "" (.text x))) := rfl
    have hkey := htext.literal (w := .text "") rfl
    refine ⟨_, _, hkey.write (by simp [hw]) (by simp) (by simp) hput, fun a ha => ?_, "", ?_⟩
    · cases a with
      | dict i =>
        have hne : id ≠ i := fun heq => ha (by rw [heq])
        exact getD_setIfInBounds_of_ne hne ..
      | _ => rfl
    · simp only [Value.IsIn] at hin
      simpa [Store.elements, Store.dict, Store.setDict, hin] using mem_put_self (t.dict id) "" _
  | concat id n => exact absurd rfl (harray id n)
  | _ => cases hin

theorem Reworks.append_text {id n : Nat} (h : s.Reworks p own t) (hw : .concat id n ∈ own)
    (hin : id < t.builders.size) (x : String) :
    ∃ own' u, s.Reworks p own' u ∧ (∀ a, u.elements a = t.elements a) ∧
      u.builder id = t.builder id ++ x := by
  have hjoin : t.concatenate (.concat id n) (.text x)
      = .ok (.concat id ((t.appendTo id x).builder id).length, t.appendTo id x) := rfl
  have htext := h.literal (w := .text x) rfl
  refine ⟨_, _, htext.join (by simp [hw]) (by simp) hjoin, fun a => ?_, ?_⟩
  · cases a <;> rfl
  · simp [Store.builder, Store.appendTo, hin]

theorem Reworks.grow (h : s.Reworks p own t) (hw : w ∈ own) (hin : w.IsIn t) (n : Nat) :
    ∃ own' u, s.Reworks p own' u ∧ (∀ a ≠ w, u.elements a = t.elements a) ∧
      ∀ y, u.fullTextOf w = .ok y → n ≤ charCount 'a' (nested y) := by
  have hcount : charCount 'a' (String.ofList (replicate n 'a')) = n := by
    simp [charCount]
  generalize String.ofList (replicate n 'a') = x at hcount
  by_cases hconcat : ∃ id m, w = .concat id m
  · obtain ⟨id, m, rfl⟩ := hconcat
    obtain ⟨own', u, hworks, hsame, hbuilder⟩ := h.append_text hw hin (x ++ "\n")
    refine ⟨own', u, hworks, fun a _ => hsame a, fun y hy => ?_⟩
    cases hy
    rw [hbuilder, ← String.append_assoc]
    calc n ≤ charCount 'a' (t.builder id ++ x) := by
          rw [charCount_append, hcount]
          exact Nat.le_add_left _ _
      _ ≤ charCount 'a' (nested (t.builder id ++ x ++ "\n")) := count_le_nested (by decide) _
  · have harray : ∀ id m, w ≠ .concat id m := fun id m heq => hconcat ⟨id, m, heq⟩
    obtain ⟨own', u, hworks, hsame, key, hmem⟩ := h.insert_text hw hin harray (x ++ "\n")
    refine ⟨own', u, hworks, hsame, fun y hy => ?_⟩
    exact hcount ▸ count_le_nested_of_element (by decide) hmem hy

theorem Reworks.refs (h : s.Reworks p own t) : t.refs = s.refs := by
  induction h with
  | start => rfl
  | literal _ _ ih | read _ _ _ _ ih | collect _ _ ih => exact ih
  | write _ _ _ _ hput ih =>
    rw [← ih]
    cases puts_of_putMember hput <;> rfl
  | join _ _ _ hjoin ih =>
    obtain ⟨_, _, _, -, rfl⟩ := ok_of_concatenate hjoin
    exact ih

theorem Data.isIn (h : s.Data v) (hmutable : v.isMutable) : v.IsIn s := by
  cases h with
  | scalar hv =>
    cases v with
    | null | bool | int | float | text => cases hmutable
    | _ => cases hv
  | concat hid => exact hid
  | list hid => exact hid
  | dict hid => exact hid

theorem Data.isMutable_of_element (h : s.Data v) {e : String × Value} (he : e ∈ s.elements v) :
    v.isMutable := by
  cases v with
  | list | dict => rfl
  | _ => cases he

theorem Extends.elements (h : s.Extends t) (hv : v.IsIn s) : t.elements v = s.elements v := by
  cases v with
  | list => exact congrArg listEntries (h.list hv)
  | dict => exact h.dict hv
  | _ => rfl

/-- The caller's value keeps its text, whatever is done with the copy, just if
none of its elements can change. -/
theorem Copied.fullTextOf_kept_iff (h : s.Copied v p t) (hv : s.Data v) :
    (∀ own u, t.Reworks p own u → u.fullTextOf v = s.fullTextOf v) ↔ s.IsFlat v := by
  refine ⟨fun hsame e he => ?_, fun hflat own u hworks => ?_⟩
  · by_contra hmutable
    rw [Bool.not_eq_false] at hmutable
    obtain ⟨k, w⟩ := e
    -- The element is read from the copy, and grows until the text would have to be longer.
    have hmem : (k, w) ∈ t.elements p := h.elements ▸ he
    obtain ⟨key, hkey, hget⟩ := exists_getMember hmem fun id hp => h.keys_nodup hv hp
    have hread : t.Reworks p [w, key, p] t :=
      (Reworks.start.literal hkey).read (by simp) (by simp) hget
    have hin : w.IsIn t := h.isIn ((hv.element he).isIn hmutable)
    obtain ⟨y, hy⟩ := hv.exists_fullTextOf
    obtain ⟨own, u, hworks, hother, hgrown⟩ :=
      hread.grow mem_cons_self hin (charCount 'a' y + 1)
    have hne : v ≠ w := by
      rintro rfl
      exact hv.not_mem_self k he
    have helements : u.elements v = s.elements v := by
      rw [hother v hne, h.toExtends.elements (hv.isIn (hv.isMutable_of_element he))]
    obtain ⟨z, hz, hcount⟩ := count_le_of_element (c := 'a') (helements ▸ he)
      ((hsame own u hworks).trans hy)
    have := hgrown z hz
    omega
  · obtain ⟨hspares, hbeyond⟩ := h.spares hflat
    exact (hspares.reworks hbeyond hworks).1.toExtends.fullTextOf hv

end Store

end PageScript
