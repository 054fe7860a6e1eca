/-
Full texts of data.

An array of data (`Store.Data`) is not inside itself, so it has a full text, which is made
of those of its elements (`Store.fullTextOf_eq`).  What is added to the store makes no
difference to it (`Store.Extends.fullTextOf`).  If the text of an element ends with a line
end, no character of it is missing in that of the array (`Store.count_le_nested`).
-/
import PageScript.Proofs.Depth
import PageScript.Proofs.Regime

namespace PageScript

open List

variable {c : Char} {key x : String} {e : String × Value} {g : Value → Except Fault String}
  {es : Entries Value}

/-- A number, a text, a truth value or null. -/
def Value.isScalar : Value → Bool
  | .null | .bool _ | .int _ | .float _ | .text _ => true
  | _ => false

namespace Store

variable {s t : Store} {v w : Value}

/-! ### Data -/

/-- Scalars, texts under construction, and arrays of data, which have each key
once and are not inside themselves. -/
inductive Data (s : Store) : Value → Prop where
  | scalar {v : Value} : v.isScalar → Data s v
  | concat {id n : Nat} : id < s.builders.size → Data s (.concat id n)
  | list {id : Nat} : id < s.lists.size → (∀ v ∈ s.list id, Data s v) → Data s (.list id)
  | dict {id : Nat} : id < s.dicts.size → (s.dict id).keys.Nodup →
      (∀ e ∈ s.dict id, Data s e.2) → Data s (.dict id)

theorem elements_of_isScalar (h : v.isScalar) : s.elements v = [] := by
  cases v with
  | list | dict => cases h
  | _ => rfl

theorem Data.element (h : s.Data v) (he : e ∈ s.elements v) : s.Data e.2 := by
  cases h with
  | scalar hv =>
    rw [elements_of_isScalar hv] at he
    cases he
  | concat => cases he
  | list _ hitems => exact hitems _ (mem_listEntries he)
  | dict _ _ hentries => exact hentries _ he

theorem Data.not_mem_self (h : s.Data v) (key : String) : (key, v) ∉ s.elements v := by
  induction h with
  | scalar hv =>
    rw [elements_of_isScalar hv]
    exact not_mem_nil
  | concat => exact not_mem_nil
  | list _ _ ih =>
    intro hmem
    exact ih _ (mem_listEntries hmem) hmem
  | dict _ _ _ ih =>
    intro hmem
    exact ih _ hmem hmem

/-! ### The equation of full texts -/

/-- The bound on the depth does not show. -/
theorem fullTextOf_eq (s : Store) (v : Value) : s.fullTextOf v = s.fullTextStep s.fullTextOf v := by
  have hstable : s.fullTextWithin (s.nesting + 1 + 1) = s.fullTextWithin (s.nesting + 1) :=
    s.fullTextWithin_stable (by rw [nesting]; omega) (by rw [nesting]; omega)
  have hstep : s.fullTextWithin (s.nesting + 1 + 1) = s.fullTextStep s.fullTextOf := by
    rw [fullTextWithin_eq, Function.iterate_succ_apply', ← fullTextWithin_eq]
    rfl
  rw [← hstep, hstable]
  rfl

theorem entryTexts_congr {h : Value → Except Fault String}
    (hgh : ∀ e ∈ es, g e.2 = h e.2) : entryTexts g es = entryTexts h es := by
  induction es with
  | nil => rfl
  | cons e es ih =>
    rw [forall_mem_cons] at hgh
    simp only [entryTexts, mapM_cons] at ih ⊢
    rw [hgh.1, ih hgh.2]

theorem exists_entryTexts (h : ∀ e ∈ es, ∃ t, g e.2 = .ok t) : ∃ ts, entryTexts g es = .ok ts := by
  induction es with
  | nil => exact ⟨[], rfl⟩
  | cons e es ih =>
    rw [forall_mem_cons] at h
    obtain ⟨t, ht⟩ := h.1
    obtain ⟨ts, hts⟩ := ih h.2
    refine ⟨(e.1, t) :: ts, ?_⟩
    simp only [entryTexts, mapM_cons] at hts ⊢
    rw [ht, hts]
    rfl

theorem mem_of_entryTexts {ts : List (String × String)} (h : entryTexts g es = .ok ts)
    (he : e ∈ es) : ∃ t, g e.2 = .ok t ∧ (e.1, t) ∈ ts := by
  induction es generalizing ts with
  | nil => cases he
  | cons first es ih =>
    rw [entryTexts, mapM_cons] at h
    obtain ⟨first', hfirst, h⟩ := ok_of_bind h
    obtain ⟨rest, hrest, h⟩ := ok_of_bind h
    obtain ⟨t, ht, hfirst⟩ := ok_of_bind hfirst
    cases hfirst
    cases h
    rcases mem_cons.1 he with rfl | he
    · exact ⟨t, ht, mem_cons_self⟩
    · obtain ⟨t', ht', hmem⟩ := ih hrest he
      exact ⟨t', ht', mem_cons_of_mem _ hmem⟩

theorem exists_text_of_isScalar (h : v.isScalar) : ∃ x, ∀ s : Store, s.fullTextOf v = .ok x := by
  cases v with
  | null | bool | int | float | text => exact ⟨_, fun _ => rfl⟩
  | _ => cases h

theorem Data.exists_fullTextOf (h : s.Data v) : ∃ x, s.fullTextOf v = .ok x := by
  induction h with
  | scalar hv =>
    obtain ⟨x, hx⟩ := exists_text_of_isScalar hv
    exact ⟨x, hx s⟩
  | concat => exact ⟨_, rfl⟩
  | list _ _ ih =>
    obtain ⟨ts, hts⟩ := exists_entryTexts fun e he => ih _ (mem_listEntries he)
    rw [fullTextOf_eq, fullTextStep, hts]
    exact ⟨_, rfl⟩
  | dict _ _ _ ih =>
    obtain ⟨ts, hts⟩ := exists_entryTexts ih
    rw [fullTextOf_eq, fullTextStep, hts]
    exact ⟨_, rfl⟩

/-! ### Stores with more in them -/

/-- All arrays and texts under construction of the first store are in the
second one, too. -/
structure Extends (s t : Store) : Prop where
  list : ∀ {id}, id < s.lists.size → t.list id = s.list id
  dict : ∀ {id}, id < s.dicts.size → t.dict id = s.dict id
  builder : ∀ {id}, id < s.builders.size → t.builder id = s.builder id

theorem Extends.fullTextOf (h : s.Extends t) (hv : s.Data v) : t.fullTextOf v = s.fullTextOf v := by
  induction hv with
  | scalar hv =>
    obtain ⟨x, hx⟩ := exists_text_of_isScalar hv
    rw [hx, hx]
  | concat hid => exact congrArg Except.ok (h.builder hid)
  | list hid _ ih =>
    have hentries := entryTexts_congr fun e he => ih _ (mem_listEntries he)
    rw [fullTextOf_eq, fullTextOf_eq s, fullTextStep, fullTextStep, h.list hid, hentries]
  | dict hid _ _ ih =>
    rw [fullTextOf_eq, fullTextOf_eq s, fullTextStep, fullTextStep, h.dict hid, entryTexts_congr ih]

/-! ### Characters of texts -/

def charCount (c : Char) (t : String) : Nat := t.toList.count c

@[simp] theorem charCount_append (c : Char) (t u : String) :
    charCount c (t ++ u) = charCount c t + charCount c u := by
  simp [charCount]

theorem splitAt_concat (sep : Char) (cs : List Char) :
    Text.splitAt sep (cs ++ [sep]) = Text.splitAt sep cs ++ [[]] := by
  induction cs with
  | nil => simp [Text.splitAt]
  | cons c cs ih =>
    rw [cons_append, Text.splitAt, Text.splitAt, ih]
    split
    · rfl
    · cases hpieces : Text.splitAt sep cs with
      | nil => exact absurd hpieces (Text.splitAt_ne_nil sep cs)
      | cons piece pieces => rfl

theorem count_splitAt {sep : Char} (hc : c ≠ sep) (cs : List Char) :
    (Text.splitAt sep cs).flatten.count c = cs.count c := by
  induction cs with
  | nil => rfl
  | cons d cs ih =>
    rw [Text.splitAt]
    split
    · rename_i hd
      rw [flatten_cons, nil_append, ih, hd, count_cons_of_ne (Ne.symm hc)]
    · cases hpieces : Text.splitAt sep cs with
      | nil => exact absurd hpieces (Text.splitAt_ne_nil sep cs)
      | cons piece pieces =>
        rw [hpieces] at ih
        simp only [flatten_cons, cons_append, count_cons] at ih ⊢
        rw [ih]

theorem count_le_intercalate (c : Char) (sep : List Char) (pieces : List (List Char)) :
    pieces.flatten.count c ≤ (sep.intercalate pieces).count c := by
  induction pieces with
  | nil => exact Nat.zero_le _
  | cons piece pieces ih =>
    cases pieces with
    | nil => simp [intercalate]
    | cons next pieces =>
      rw [intercalate_cons_cons]
      simp only [flatten_cons, count_append] at ih ⊢
      omega

theorem count_le_indented (c : Char) (pieces : List (List Char)) :
    pieces.flatten.count c ≤ (pieces.map ('\t' :: ·)).flatten.count c := by
  induction pieces with
  | nil => exact Nat.le_refl _
  | cons piece pieces ih =>
    simp only [map_cons, flatten_cons, count_append, count_cons]
    omega

theorem count_le_nested (hc : c ≠ '\n') (t : String) :
    charCount c t ≤ charCount c (nested (t ++ "\n")) := by
  have hcount := count_splitAt hc t.toList
  have hsplit := splitAt_concat '\n' t.toList
  obtain ⟨line, rest, hlines⟩ := exists_cons_of_ne_nil (Text.splitAt_ne_nil '\n' t.toList)
  rw [hlines] at hcount hsplit
  have hnested : (nested (t ++ "\n")).toList
      = ['\n'].intercalate (line :: rest.map ('\t' :: ·)) := by
    rw [nested, Text.lines, String.toList_append, show "\n".toList = ['\n'] from rfl, hsplit]
    simp [Text.unlines, Function.comp_def]
  have htabs := count_le_indented c rest
  have hlines := count_le_intercalate c ['\n'] (line :: rest.map ('\t' :: ·))
  rw [charCount, charCount, hnested, ← hcount]
  rw [flatten_cons, count_append] at hlines ⊢
  omega

theorem count_le_join {t : String} {texts : List String} (h : t ∈ texts) :
    charCount c t ≤ charCount c (String.join texts) := by
  induction texts with
  | nil => cases h
  | cons first texts ih =>
    rw [String.join_cons, charCount_append]
    rcases mem_cons.1 h with rfl | h
    · exact Nat.le_add_right _ _
    · exact (ih h).trans (Nat.le_add_left _ _)

theorem count_le_arrayText {entries : List (String × String)}
    (h : (key, x) ∈ entries) : charCount c (nested x) ≤ charCount c (arrayText entries) := by
  have hentry : charCount c (nested x) ≤ charCount c (entryText key x) := by
    simp only [entryText, charCount_append]
    omega
  rw [arrayText, charCount_append, charCount_append]
  refine Nat.le_add_right_of_le (Nat.le_add_left_of_le (hentry.trans ?_))
  exact count_le_join (mem_map.2 ⟨(key, x), h, rfl⟩)

theorem exists_arrayText_eq (entries : List (String × String)) :
    ∃ x, arrayText entries = x ++ "\n" := by
  have hend : ")\n" = ")" ++ "\n" := rfl
  rw [arrayText, hend, ← String.append_assoc]
  exact ⟨_, rfl⟩

theorem fullTextOf_array (h : e ∈ s.elements v) :
    s.fullTextOf v = do return arrayText (← entryTexts s.fullTextOf (s.elements v)) := by
  rw [fullTextOf_eq]
  cases v with
  | list | dict => rfl
  | _ => cases h

theorem count_le_of_element (h : (key, w) ∈ s.elements v) (hx : s.fullTextOf v = .ok x) :
    ∃ y, s.fullTextOf w = .ok y ∧ charCount c (nested y) ≤ charCount c x := by
  rw [fullTextOf_array h] at hx
  obtain ⟨ts, hts, hx⟩ := ok_of_bind hx
  cases hx
  obtain ⟨y, hy, hmem⟩ := mem_of_entryTexts hts h
  exact ⟨y, hy, count_le_arrayText hmem⟩

theorem count_le_nested_of_element (hc : c ≠ '\n') {y : String}
    (h : (key, .text (x ++ "\n")) ∈ s.elements v) (hy : s.fullTextOf v = .ok y) :
    charCount c x ≤ charCount c (nested y) := by
  obtain ⟨z, hz, hcount⟩ := count_le_of_element (c := c) h hy
  cases hz
  rw [fullTextOf_array h] at hy
  obtain ⟨ts, -, hy⟩ := ok_of_bind hy
  obtain ⟨z, hts⟩ := exists_arrayText_eq ts
  cases hy
  rw [hts] at hcount ⊢
  have hend : charCount c "\n" = 0 := count_eq_zero.2 (by simpa using hc)
  calc charCount c x ≤ charCount c (nested (x ++ "\n")) := count_le_nested hc x
    _ ≤ charCount c z + charCount c "\n" := by rwa [← charCount_append]
    _ = charCount c z := by rw [hend, Nat.add_zero]
    _ ≤ charCount c (nested (z ++ "\n")) := count_le_nested hc z

end Store

end PageScript
