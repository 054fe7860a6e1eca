/-
Full texts of nested arrays.

The full text of an array is made from the inside: that of an element is cut into lines
again, and all but the first get one more tab (`Store.nested`).  It could as well be
printed in one go by a printer that knows how deep it is (`Store.Prints`).  As long as no
text and no key inside has a line end, both come to the same (`printed_in_one_go`).
The reason is that to print one level deeper is to put a tab behind every line end
(`indented`), whether it is done to a part or to the whole (`indented_indented`).
-/
import PageScript.Proofs.Arrays

namespace PageScript.Store

open List

variable {s : Store} {v : Value} {d : Nat} {t : String} {es : Entries Value}

def tabs (d : Nat) : String := String.ofList (replicate d '\t')

mutual

/-- A value as it is printed so many tabs deep: an array with its entries, which are
one tab deeper, and what is no array as its text. -/
inductive Prints (s : Store) : Nat → Value → String → Prop where
  | leaf {d : Nat} {v : Value} {t : String} : (∀ id, v ≠ .list id ∧ v ≠ .dict id) →
      s.textOf v = .ok t → Prints s d v t
  | list {d id : Nat} {t : String} : PrintsAll s (d + 1) (listEntries (s.list id)) t →
      Prints s d (.list id) ("Array\n" ++ tabs d ++ "(" ++ t ++ "\n" ++ tabs d ++ ")")
  | dict {d id : Nat} {t : String} : PrintsAll s (d + 1) (s.dict id) t →
      Prints s d (.dict id) ("Array\n" ++ tabs d ++ "(" ++ t ++ "\n" ++ tabs d ++ ")")

/-- Entries one after the other, each on a line of its own. -/
inductive PrintsAll (s : Store) : Nat → Entries Value → String → Prop where
  | nil {d : Nat} : PrintsAll s d [] ""
  | cons {d : Nat} {key t rest : String} {v : Value} {es : Entries Value} :
      Prints s d v t → PrintsAll s d es rest →
      PrintsAll s d ((key, v) :: es) ("\n" ++ tabs d ++ "[" ++ key ++ "] => " ++ t ++ rest)

end

mutual

theorem Prints.unique : ∀ {d : Nat} {v : Value} {t u : String},
    s.Prints d v t → s.Prints d v u → u = t
  | _, _, _, _, .leaf hleaf ht, h => by
    cases h with
    | leaf _ hu => exact Except.ok.inj (hu.symm.trans ht)
    | @list _ id => exact absurd rfl (hleaf id).1
    | @dict _ id => exact absurd rfl (hleaf id).2
  | _, _, _, _, .list hall, h => by
    cases h with
    | leaf hleaf => exact absurd rfl (hleaf _).1
    | list hall' => rw [hall.unique hall']
  | _, _, _, _, .dict hall, h => by
    cases h with
    | leaf hleaf => exact absurd rfl (hleaf _).2
    | dict hall' => rw [hall.unique hall']

theorem PrintsAll.unique : ∀ {d : Nat} {es : Entries Value} {t u : String},
    s.PrintsAll d es t → s.PrintsAll d es u → u = t
  | _, _, _, _, .nil, .nil => rfl
  | _, _, _, _, .cons hfirst hrest, .cons hfirst' hrest' => by
    rw [hfirst.unique hfirst', hrest.unique hrest']

end

/-- A value that is not inside itself, with no line end in a text or a key of a
dictionary in it. -/
inductive OneLined (s : Store) : Value → Prop where
  | leaf {v : Value} {t : String} : (∀ id, v ≠ .list id ∧ v ≠ .dict id) → s.textOf v = .ok t →
      '\n' ∉ t.toList → OneLined s v
  | list {id : Nat} : (∀ v ∈ s.list id, OneLined s v) → OneLined s (.list id)
  | dict {id : Nat} : (∀ e ∈ s.dict id, '\n' ∉ e.1.toList) → (∀ e ∈ s.dict id, OneLined s e.2) →
      OneLined s (.dict id)

/-! ### Indenting -/

/-- A text with tabs behind every line end. -/
def indented (d : Nat) (t : String) : String :=
  String.ofList (t.toList.flatMap fun c => if c = '\n' then '\n' :: replicate d '\t' else [c])

@[simp] theorem indented_append (d : Nat) (t u : String) :
    indented d (t ++ u) = indented d t ++ indented d u := by
  simp [indented]

theorem indented_of_not_mem (h : '\n' ∉ t.toList) (d : Nat) : indented d t = t := by
  have hsame : ∀ c ∈ t.toList, (if c = '\n' then '\n' :: replicate d '\t' else [c]) = [c] :=
    fun c hc => if_neg fun hend : c = '\n' => h (hend ▸ hc)
  rw [indented, flatMap_congr hsame]
  simp

theorem indented_end (d : Nat) : indented d "\n" = "\n" ++ tabs d := by
  simp [indented, tabs]

theorem indented_indented (d : Nat) (t : String) :
    indented d (indented 1 t) = indented (d + 1) t := by
  have htab : ('\t' : Char) ≠ '\n' := by decide
  simp only [indented, String.toList_ofList, flatMap_assoc]
  congr 1
  refine flatMap_congr fun c _ => ?_
  by_cases hc : c = '\n' <;> simp [hc, htab, replicate_succ']

theorem tabs_succ (d : Nat) : tabs d ++ "\t" = tabs (d + 1) := by
  simp [tabs, replicate_succ']

theorem intercalate_indented (line : List Char) (lines : List (List Char)) :
    ['\n'].intercalate (line :: lines.map ('\t' :: ·))
      = line ++ lines.flatMap fun l => '\n' :: '\t' :: l := by
  induction lines generalizing line with
  | nil => simp
  | cons next lines ih => simp [intercalate_cons_cons, ih]

theorem flatMap_splitAt (cs : List Char) : ∃ line lines, Text.splitAt '\n' cs = line :: lines ∧
    (cs.flatMap fun c => if c = '\n' then ['\n', '\t'] else [c])
      = line ++ lines.flatMap fun l => '\n' :: '\t' :: l := by
  induction cs with
  | nil => exact ⟨[], [], rfl, rfl⟩
  | cons c cs ih =>
    obtain ⟨line, lines, hsplit, htext⟩ := ih
    by_cases hc : c = '\n'
    · refine ⟨[], line :: lines, by rw [Text.splitAt, if_pos hc, hsplit], ?_⟩
      simp [hc, htext]
    · refine ⟨c :: line, lines, by rw [Text.splitAt, if_neg hc, hsplit], ?_⟩
      simp [hc, htext]

/-- A text that ends with a line end is nested without it, one tab deeper. -/
theorem nested_end (t : String) : nested (t ++ "\n") = indented 1 t := by
  obtain ⟨line, lines, hsplit, htext⟩ := flatMap_splitAt t.toList
  have hlines : Text.splitAt '\n' (t ++ "\n").toList = line :: (lines ++ [[]]) := by
    rw [String.toList_append, show "\n".toList = ['\n'] from rfl, splitAt_concat, hsplit]
    rfl
  have hindented : indented 1 t = String.ofList (['\n'].intercalate (line :: lines.map ('\t' :: ·))) := by
    rw [intercalate_indented, ← htext]
    rfl
  rw [nested, Text.lines, hlines, hindented]
  simp [Text.unlines, Function.comp_def, String.ext_iff]

theorem nested_of_not_mem (h : '\n' ∉ t.toList) : nested t = t := by
  rw [nested, Text.lines, Text.splitAt_of_not_mem h]
  simp [Text.unlines]

/-! ### Printing -/

/-- The text is printed for the value, with tabs according to the depth, and nested as
the full text of the value is nested. -/
def Lays (s : Store) (v : Value) (t : String) : Prop :=
  (∀ d, s.Prints d v (indented d t)) ∧
    ∃ x, s.fullTextOf v = .ok x ∧ nested x = indented 1 t

theorem exists_printsAll (hkeys : ∀ e ∈ es, '\n' ∉ e.1.toList) (h : ∀ e ∈ es, ∃ t, s.Lays e.2 t) :
    ∃ t ts, entryTexts s.fullTextOf es = .ok ts ∧
      (∀ d, s.PrintsAll (d + 1) es (indented d t)) ∧
      "\n" ++ String.join (ts.map fun e => entryText e.1 e.2) = t ++ "\n" := by
  induction es with
  | nil => exact ⟨"", [], rfl, fun d => .nil, rfl⟩
  | cons e es ih =>
    rw [forall_mem_cons] at hkeys h
    obtain ⟨t, hprints, x, hx, hnested⟩ := h.1
    obtain ⟨rest, ts, hts, hall, hjoin⟩ := ih hkeys.2 h.2
    refine ⟨"\n" ++ ("\t[" ++ e.1 ++ "] => ") ++ indented 1 t ++ rest, (e.1, x) :: ts, ?_, ?_, ?_⟩
    · simp only [entryTexts, mapM_cons] at hts ⊢
      rw [hx, hts]
      rfl
    · intro d
      -- The line end before the entry gets the tabs that the entry is printed with.
      have hkey : '\n' ∉ ("\t[" ++ e.1 ++ "] => ").toList := by
        simp [hkeys.1]
      have hline : indented d ("\n" ++ ("\t[" ++ e.1 ++ "] => ") ++ indented 1 t ++ rest)
          = "\n" ++ tabs (d + 1) ++ "[" ++ e.1 ++ "] => " ++ indented (d + 1) t
            ++ indented d rest := by
        rw [indented_append, indented_append, indented_append, indented_end, indented_indented,
          indented_of_not_mem hkey, ← tabs_succ]
        simp [String.ext_iff]
      rw [hline]
      exact .cons (hprints (d + 1)) (hall d)
    · rw [map_cons, String.join_cons, entryText, hnested, String.append_assoc, hjoin]
      simp [String.ext_iff]

theorem lays_array {ts : List (String × String)} {t : String}
    (hprints : ∀ d, s.Prints d v ("Array\n" ++ tabs d ++ "(" ++ indented d t ++ "\n" ++ tabs d ++ ")"))
    (hfull : s.fullTextOf v = .ok (arrayText ts))
    (hjoin : "\n" ++ String.join (ts.map fun e => entryText e.1 e.2) = t ++ "\n") :
    s.Lays v ("Array\n(" ++ t ++ "\n)") ∧ s.fullTextOf v = .ok ("Array\n(" ++ t ++ "\n)" ++ "\n") := by
  have htext : arrayText ts = "Array\n(" ++ t ++ "\n)" ++ "\n" := by
    have hend : "Array\n(" ++ t ++ "\n)" ++ "\n" = "Array\n(" ++ (t ++ "\n") ++ ")\n" := by
      simp [String.ext_iff]
    rw [hend, ← hjoin, arrayText]
    simp [String.ext_iff]
  refine ⟨⟨fun d => ?_, _, hfull, by rw [htext, nested_end]⟩, by rw [hfull, htext]⟩
  have hindented : indented d ("Array\n(" ++ t ++ "\n)")
      = "Array\n" ++ tabs d ++ "(" ++ indented d t ++ "\n" ++ tabs d ++ ")" := by
    simp [indented, tabs, String.ext_iff]
  rw [hindented]
  exact hprints d

theorem not_mem_key (items : Array Value) : ∀ e ∈ listEntries items, '\n' ∉ e.1.toList := by
  intro e he
  obtain ⟨i, -, hkey⟩ := mem_keys_numberedFrom (mem_map_of_mem he)
  rw [hkey, Nat.toString_eq_ofList_toDigits, String.toList_ofList]
  exact fun h => absurd (Nat.isDigit_of_mem_toDigits (by decide) (by decide) h) (by decide)

theorem OneLined.lays (h : s.OneLined v) : ∃ t, s.Lays v t ∧
    ((∃ id, v = .list id ∨ v = .dict id) → s.fullTextOf v = .ok (t ++ "\n")) := by
  induction h with
  | @leaf v t hleaf ht hline =>
    have hfull : s.fullTextOf v = .ok t := by
      rw [fullTextOf_eq, ← ht]
      cases v with
      | list id => exact absurd rfl (hleaf id).1
      | dict id => exact absurd rfl (hleaf id).2
      | _ => rfl
    refine ⟨t, ⟨fun d => ?_, t, hfull, ?_⟩, ?_⟩
    · rw [indented_of_not_mem hline]
      exact .leaf hleaf ht
    · rw [nested_of_not_mem hline, indented_of_not_mem hline]
    · rintro ⟨id, h | h⟩
      · exact absurd h (hleaf id).1
      · exact absurd h (hleaf id).2
  | list _ ih =>
    obtain ⟨t, ts, hts, hall, hjoin⟩ := exists_printsAll (not_mem_key _) fun e he =>
      (ih _ (mem_listEntries he)).imp fun _ h => h.1
    have hlays := lays_array (fun d => .list (hall d)) (by rw [fullTextOf_eq, fullTextStep, hts]; rfl) hjoin
    exact ⟨_, hlays.1, fun _ => hlays.2⟩
  | dict hkeys _ ih =>
    obtain ⟨t, ts, hts, hall, hjoin⟩ := exists_printsAll hkeys fun e he =>
      (ih e he).imp fun _ h => h.1
    have hlays := lays_array (fun d => .dict (hall d)) (by rw [fullTextOf_eq, fullTextStep, hts]; rfl) hjoin
    exact ⟨_, hlays.1, fun _ => hlays.2⟩

/-- The full text of an array is what is printed at depth 0, and a line end. -/
theorem printed_in_one_go (h : s.OneLined v) (harray : ∃ id, v = .list id ∨ v = .dict id) :
    ∃ t, (∀ u, s.Prints 0 v u ↔ u = t) ∧ s.fullTextOf v = .ok (t ++ "\n") := by
  obtain ⟨t, hlays, hfull⟩ := h.lays
  have hprints : s.Prints 0 v t := by
    have hsame : indented 0 t = t := by
      have hchars : ∀ c ∈ t.toList, (if c = '\n' then '\n' :: replicate 0 '\t' else [c]) = [c] := by
        intro c _
        split <;> simp_all
      rw [indented, flatMap_congr hchars]
      simp
    exact hsame ▸ hlays.1 0
  refine ⟨t, fun u => ⟨hprints.unique, ?_⟩, hfull harray⟩
  rintro rfl
  exact hprints

/-- A store with a dictionary, which has a list under a name, and this list. -/
def nestedStore : Store := { lists := #[#[.int 7, .text "b"]], dicts := #[[("k", .list 0)]] }

theorem printed_in_one_go_nested : nestedStore.fullTextOf (.dict 0)
    = .ok "Array\n(\n\t[k] => Array\n\t(\n\t\t[0] => 7\n\t\t[1] => b\n\t)\n)\n" ∧
    ∃ t, (∀ u, nestedStore.Prints 0 (.dict 0) u ↔ u = t) ∧
      nestedStore.fullTextOf (.dict 0) = .ok (t ++ "\n") := by
  have hlist : nestedStore.OneLined (.list 0) := by
    refine .list fun v hv => ?_
    have hv : v ∈ [Value.int 7, .text "b"] := Array.mem_def.1 hv
    simp only [mem_cons, not_mem_nil, or_false] at hv
    rcases hv with rfl | rfl
    · exact .leaf (by simp) rfl (by decide)
    · exact .leaf (by simp) rfl (by decide)
  have hdict : nestedStore.OneLined (.dict 0) := by
    refine .dict ?_ ?_
    · decide
    · exact forall_mem_cons.2 ⟨hlist, by simp⟩
  exact ⟨by decide +kernel, printed_in_one_go hdict ⟨0, .inr rfl⟩⟩

end PageScript.Store
