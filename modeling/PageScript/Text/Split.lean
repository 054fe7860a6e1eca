/-
Cutting texts at separators.

`splitAt sep` cuts a list at every separator and keeps empty pieces;
`joinWith sep` is its inverse.  `cutFirst` cuts at the first separator only.
-/
namespace PageScript.Text

/-- The pieces between separators, one more than there are separators. -/
def splitAt (sep : Char) : List Char → List (List Char)
  | [] => [[]]
  | c :: cs =>
    if c = sep then [] :: splitAt sep cs
    else match splitAt sep cs with
      | [] => [[c]]
      | piece :: pieces => (c :: piece) :: pieces

/-- Pieces put together with a separator between them. -/
def joinWith (sep : List Char) : List (List Char) → List Char
  | [] => []
  | [piece] => piece
  | piece :: pieces => piece ++ sep ++ joinWith sep pieces

/-- What stands before the first separator and, if there is one, what stands
after it. -/
def cutFirst (sep : Char) : List Char → List Char × Option (List Char)
  | [] => ([], none)
  | c :: cs =>
    if c = sep then ([], some cs)
    else
      let (before, after) := cutFirst sep cs
      (c :: before, after)

theorem splitAt_ne_nil (sep : Char) (cs : List Char) : splitAt sep cs ≠ [] := by
  cases cs with
  | nil => simp [splitAt]
  | cons c cs =>
    rw [splitAt]
    split
    · simp
    · split <;> simp

/-- The pieces of a text joined again give the text. -/
theorem joinWith_splitAt (sep : Char) (cs : List Char) :
    joinWith [sep] (splitAt sep cs) = cs := by
  induction cs with
  | nil => rfl
  | cons c cs ih =>
    rw [splitAt]
    split
    · next h =>
      cases hs : splitAt sep cs with
      | nil => exact absurd hs (splitAt_ne_nil sep cs)
      | cons piece pieces => rw [hs] at ih; simp [joinWith, ih, h]
    · cases hs : splitAt sep cs with
      | nil => exact absurd hs (splitAt_ne_nil sep cs)
      | cons piece pieces =>
        rw [hs] at ih
        cases pieces with
        | nil => simpa [joinWith] using ih
        | cons next pieces => simpa [joinWith] using ih

/-- A text without separators is its only piece. -/
theorem splitAt_of_not_mem {sep : Char} {cs : List Char} (h : sep ∉ cs) :
    splitAt sep cs = [cs] := by
  induction cs with
  | nil => rfl
  | cons c cs ih =>
    have hc : c ≠ sep := fun hc => h (hc ▸ List.mem_cons_self)
    have hcs : sep ∉ cs := fun hm => h (List.mem_cons_of_mem _ hm)
    rw [splitAt, if_neg hc, ih hcs]

/-- The pieces around a separator are those before it and those after it. -/
theorem splitAt_append (sep : Char) (before after : List Char) :
    splitAt sep (before ++ sep :: after) = splitAt sep before ++ splitAt sep after := by
  induction before with
  | nil => simp [splitAt]
  | cons c before ih =>
    rw [List.cons_append, splitAt, splitAt, ih]
    split
    · rfl
    · cases hbefore : splitAt sep before with
      | nil => exact absurd hbefore (splitAt_ne_nil sep before)
      | cons piece pieces => rfl

/-- No piece has a separator in it. -/
theorem not_mem_of_mem_splitAt {sep : Char} {cs piece : List Char}
    (h : piece ∈ splitAt sep cs) : sep ∉ piece := by
  induction cs generalizing piece with
  | nil => simp_all [splitAt]
  | cons c cs ih =>
    rw [splitAt] at h
    split at h
    · rcases List.mem_cons.1 h with rfl | h
      · exact List.not_mem_nil
      · exact ih h
    · next hc =>
      cases hs : splitAt sep cs with
      | nil => exact absurd hs (splitAt_ne_nil sep cs)
      | cons first pieces =>
        rw [hs] at h ih
        rcases List.mem_cons.1 h with rfl | h
        · intro hm
          rcases List.mem_cons.1 hm with rfl | hm
          · exact hc rfl
          · exact ih List.mem_cons_self hm
        · exact ih (List.mem_cons_of_mem _ h)

/-- The pieces of two texts put together: the last piece of the first one goes
on into the second one. -/
theorem splitAt_append_eq (sep : Char) (cs : List Char) :
    ∃ pieces last, splitAt sep cs = pieces ++ [last] ∧
      ∀ rest, splitAt sep (cs ++ rest) = pieces ++ splitAt sep (last ++ rest) := by
  induction cs with
  | nil => exact ⟨[], [], rfl, fun rest => rfl⟩
  | cons c cs ih =>
    obtain ⟨pieces, last, hsplit, hrest⟩ := ih
    by_cases hc : c = sep
    · refine ⟨[] :: pieces, last, by rw [splitAt, if_pos hc, hsplit]; rfl, fun rest => ?_⟩
      rw [List.cons_append, splitAt, if_pos hc, hrest]
      rfl
    · -- the character belongs to the first piece, which may be the last one, too
      cases pieces with
      | nil =>
        refine ⟨[], c :: last, by rw [splitAt, if_neg hc, hsplit]; rfl, fun rest => ?_⟩
        rw [List.cons_append, splitAt, if_neg hc, hrest, List.nil_append, List.nil_append,
          List.cons_append, splitAt, if_neg hc]
      | cons first pieces =>
        refine ⟨(c :: first) :: pieces, last, by rw [splitAt, if_neg hc, hsplit]; rfl,
          fun rest => ?_⟩
        rw [List.cons_append, splitAt, if_neg hc, hrest]
        rfl

/-- Pieces without separators are the pieces of what they are joined to. -/
theorem splitAt_joinWith {sep : Char} {pieces : List (List Char)} (hne : pieces ≠ [])
    (h : ∀ piece ∈ pieces, sep ∉ piece) : splitAt sep (joinWith [sep] pieces) = pieces := by
  induction pieces with
  | nil => exact absurd rfl hne
  | cons piece pieces ih =>
    cases pieces with
    | nil => exact splitAt_of_not_mem (h piece List.mem_cons_self)
    | cons next pieces =>
      have hrest := ih (List.cons_ne_nil _ _) fun p hp => h p (List.mem_cons_of_mem _ hp)
      rw [joinWith, List.append_assoc, List.singleton_append, splitAt_append,
        splitAt_of_not_mem (h piece List.mem_cons_self), hrest, List.singleton_append]
      exact List.cons_ne_nil _ _

theorem cutFirst_append {sep : Char} {before : List Char} (h : sep ∉ before)
    (after : List Char) :
    cutFirst sep (before ++ sep :: after) = (before, some after) := by
  induction before with
  | nil => simp [cutFirst]
  | cons c before ih =>
    have hc : c ≠ sep := fun hc => h (hc ▸ List.mem_cons_self)
    have hbefore : sep ∉ before := fun hm => h (List.mem_cons_of_mem _ hm)
    rw [List.cons_append, cutFirst, if_neg hc, ih hbefore]

def lines (s : String) : List String :=
  (splitAt '\n' s.toList).map String.ofList

def unlines (parts : List String) : String := "\n".intercalate parts

end PageScript.Text
