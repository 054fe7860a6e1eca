/-
Texts cut at their variables.

`splitVariables` cuts a text without loss: its variables, each with what stands before
it and the braces next to it (`Spot`), and what stands behind the last one are the whole
text (`Cuts.whole`).  It misses none, as no text between variables has a `$` that
begins one (`Cuts.between`).  And it takes each one as far as it goes
(`Cuts.names`), since taking a variable is greedy: of all beginnings of a text that
are a variable the longest is taken (`length_le_of_takeVariable`).
-/
import PageScript.Literal.Variables
import Mathlib.Data.List.Chain
import Mathlib.Data.List.TakeWhile

namespace PageScript.Literal

open List
open Text (isPlainDigit)

variable {cs name rest before after v : List Char}

/-! ### Where the variables are -/

/-- A variable of a text, with what stands between it and the one before, and whether
a brace opens before it and closes behind it. -/
structure Spot where
  before : List Char
  opened : Bool
  name : List Char
  closed : Bool
  deriving DecidableEq

namespace Spot

/-- The brace before the variable, if there is one. -/
def opening (spot : Spot) : List Char := if spot.opened then ['\x7b'] else []

/-- The brace behind the variable, if there is one. -/
def closing (spot : Spot) : List Char := if spot.closed then ['\x7d'] else []

/-- The variable in the text, with its braces and what stands before it. -/
def written (spot : Spot) : List Char :=
  spot.before ++ (spot.opening ++ (spot.name ++ spot.closing))

end Spot

/-- The variable at the start of a text, if there is one, and what follows it. -/
def takeSpot (before cs : List Char) : Option (Spot × List Char) :=
  let opened : Bool := cs.head? = some '\x7b'
  (takeVariable (if opened then cs.drop 1 else cs)).map fun p =>
    (⟨before, opened, p.1, p.2.head? = some '\x7d'⟩, dropClosing p.2)

theorem takeSpot_length {spot : Spot} (h : takeSpot before cs = some (spot, after)) :
    after.length < cs.length := by
  obtain ⟨⟨name, rest⟩, htake, hspot⟩ := Option.map_eq_some_iff.1 h
  obtain ⟨-, rfl⟩ := Prod.mk.inj hspot
  have hopening : (if decide (cs.head? = some '\x7b') then cs.drop 1 else cs).length ≤ cs.length := by
    split <;> simp
  exact Nat.lt_of_le_of_lt (dropClosing_length rest)
    (Nat.lt_of_lt_of_le (takeVariable_length htake) hopening)

/-- The variables of a text and what stands behind the last; `before` was passed since
the last variable, in reverse. -/
def spotsFrom (before cs : List Char) : List Spot × List Char :=
  match cs with
  | [] => ([], before.reverse)
  | c :: rest =>
    match h : takeSpot before.reverse (c :: rest) with
    | some (spot, after) =>
      have : after.length < (c :: rest).length := takeSpot_length h
      let (found, last) := spotsFrom [] after
      (spot :: found, last)
    | none => spotsFrom (c :: before) rest
termination_by cs.length
decreasing_by
  · exact this
  · exact Nat.lt_succ_self _

/-- The variables of a text and what stands behind the last. -/
def spots (cs : List Char) : List Spot × List Char := spotsFrom [] cs

/-- What stands between variables, and the variables, in turn. -/
def alternating : List Spot → List Char → List (List Char)
  | [], last => [last]
  | spot :: found, last => spot.before :: spot.name :: alternating found last

/-! ### The form of a variable -/

/-- A `$` and a name. -/
def IsName (cs : List Char) : Prop :=
  ∃ c part, cs = '$' :: c :: part ∧ isNameStart c ∧ ∀ d ∈ part, isNamePart d

/-- Digits or a name in brackets. -/
def IsBracket (cs : List Char) : Prop :=
  ∃ index, cs = '[' :: (index ++ [']']) ∧
    (index ≠ [] ∧ (∀ d ∈ index, isPlainDigit d) ∨ IsName index)

/-- A name with any number of indexes in brackets. -/
def IsVariable (cs : List Char) : Prop :=
  ∃ name brackets, cs = name ++ flatten brackets ∧ IsName name ∧ ∀ b ∈ brackets, IsBracket b

/-- No `$` stands right before a character that begins a name. -/
abbrev Bare (text : List Char) : Prop := text.IsChain fun a b => a = '$' → isNameStart b = false

/-! ### What is taken has the form -/

theorem isName_of_takeName (h : takeName cs = some (name, rest)) :
    cs = name ++ rest ∧ IsName name := by
  unfold takeName at h
  split at h
  case h_2 => cases h
  case h_1 c cs =>
    split at h
    case isFalse => cases h
    case isTrue hc =>
      obtain ⟨rfl, rfl⟩ := Prod.mk.inj (Option.some.inj h)
      refine ⟨?_, c, _, rfl, hc, fun d => mem_takeWhile_imp⟩
      rw [cons_append, cons_append, takeWhile_append_dropWhile]

theorem isBracket_of_takeBracket {bracket : List Char} (h : takeBracket cs = some (bracket, rest)) :
    cs = bracket ++ rest ∧ IsBracket bracket := by
  unfold takeBracket at h
  split at h
  case h_2 => cases h
  case h_1 cs =>
    split at h
    case h_2 => cases h
    case h_1 index rest' hindex =>
      obtain ⟨rfl, rfl⟩ := Prod.mk.inj (Option.some.inj h)
      unfold takeIndex at hindex
      dsimp only at hindex
      split at hindex
      case isTrue =>
        obtain ⟨rfl, hname⟩ := isName_of_takeName hindex
        exact ⟨by simp, index, rfl, .inr hname⟩
      case isFalse hdigits =>
        obtain ⟨rfl, hrest⟩ := Prod.mk.inj (Option.some.inj hindex)
        refine ⟨?_, _, rfl, .inl ⟨by simpa using hdigits, fun d => mem_takeWhile_imp⟩⟩
        have hall := takeWhile_append_dropWhile (p := isPlainDigit) (l := cs)
        rw [hrest] at hall
        simp [hall]

theorem takeBrackets_eq (cs : List Char) : ∃ brackets : List (List Char),
    (∀ b ∈ brackets, IsBracket b) ∧ (takeBrackets cs).1 = flatten brackets ∧
      cs = flatten brackets ++ (takeBrackets cs).2 := by
  fun_induction takeBrackets cs with
  | case1 cs bracket rest h _ more rest' hmore ih =>
    rw [hmore] at ih
    obtain ⟨brackets, hbrackets, rfl, hrest⟩ := ih
    obtain ⟨hcs, hbracket⟩ := isBracket_of_takeBracket h
    refine ⟨bracket :: brackets, forall_mem_cons.2 ⟨hbracket, hbrackets⟩, rfl, ?_⟩
    rw [flatten_cons, append_assoc, ← hrest, ← hcs]
  | case2 cs h => exact ⟨[], by simp, rfl, rfl⟩

theorem isVariable_of_takeVariable (h : takeVariable cs = some (v, rest)) :
    cs = v ++ rest ∧ IsVariable v := by
  obtain ⟨⟨name, rest'⟩, hname, hv⟩ := Option.map_eq_some_iff.1 h
  obtain ⟨rfl, rfl⟩ := Prod.mk.inj hv
  obtain ⟨rfl, hform⟩ := isName_of_takeName hname
  obtain ⟨brackets, hbrackets, htaken, hrest⟩ := takeBrackets_eq rest'
  refine ⟨?_, name, brackets, by rw [htaken], hform, hbrackets⟩
  rw [append_assoc, htaken, ← hrest]

/-! ### No more can be taken -/

theorem takeName_append (h : IsName name) (rest : List Char) :
    takeName (name ++ rest) = some (name ++ rest.takeWhile isNamePart, rest.dropWhile isNamePart) := by
  obtain ⟨c, part, rfl, hc, hpart⟩ := h
  rw [cons_append, cons_append, takeName, if_pos hc, takeWhile_append_of_pos hpart,
    dropWhile_append_of_pos hpart]
  rfl

theorem takeBracket_append {bracket : List Char} (h : IsBracket bracket) (rest : List Char) :
    takeBracket (bracket ++ rest) = some (bracket, rest) := by
  obtain ⟨index, rfl, hindex⟩ := h
  have htake : takeIndex (index ++ ']' :: rest) = some (index, ']' :: rest) := by
    unfold takeIndex
    rcases hindex with ⟨hne, hdigits⟩ | hname
    · have hend : isPlainDigit ']' = false := rfl
      simp [takeWhile_append_of_pos hdigits, dropWhile_append_of_pos hdigits, hend, hne]
    · have hend : isNamePart ']' = false := rfl
      have hnone : takeWhile isPlainDigit (index ++ ']' :: rest) = [] := by
        obtain ⟨c, part, rfl, -⟩ := hname
        rfl
      simp [hnone, takeName_append hname, hend]
  rw [cons_append, append_assoc, singleton_append, takeBracket, htake]
  rfl

theorem takeBrackets_append {brackets : List (List Char)} (h : ∀ b ∈ brackets, IsBracket b)
    (rest : List Char) :
    takeBrackets (flatten brackets ++ rest)
      = (flatten brackets ++ (takeBrackets rest).1, (takeBrackets rest).2) := by
  induction brackets with
  | nil => rfl
  | cons b brackets ih =>
    rw [forall_mem_cons] at h
    have htake := takeBracket_append h.1 (flatten brackets ++ rest)
    rw [flatten_cons, append_assoc, takeBrackets]
    split
    case h_1 hsome =>
      rw [htake] at hsome
      cases hsome
      rw [ih h.2, append_assoc]
    case h_2 hnone =>
      rw [htake] at hnone
      cases hnone

theorem length_le_of_takeVariable {w : List Char} (hw : IsVariable w)
    (h : takeVariable (w ++ after) = some (v, rest)) : w.length ≤ v.length := by
  obtain ⟨name, brackets, rfl, hname, hbrackets⟩ := hw
  rw [append_assoc, takeVariable, takeName_append hname, Option.map_some] at h
  obtain ⟨rfl, -⟩ := Prod.mk.inj (Option.some.inj h)
  cases brackets with
  | nil =>
    simp only [flatten_nil, append_nil, length_append]
    omega
  | cons b brackets =>
    -- A bracket ends the name, so that the indexes are all taken after it.
    have hname : takeWhile isNamePart (flatten (b :: brackets) ++ after) = [] ∧
        dropWhile isNamePart (flatten (b :: brackets) ++ after)
          = flatten (b :: brackets) ++ after := by
      obtain ⟨index, rfl, -⟩ := hbrackets b mem_cons_self
      exact ⟨rfl, rfl⟩
    rw [hname.1, hname.2, append_nil, takeBrackets_append hbrackets]
    simp only [length_append]
    omega

/-! ### The cuts -/

/-- The text is all of these spots and what stands behind them.  No `$` between variables
begins one, and no variable goes further than it was taken. -/
structure Cuts (cs : List Char) (found : List Spot) (last : List Char) : Prop where
  whole : found.flatMap Spot.written ++ last = cs
  between : ∀ text ∈ found.map Spot.before ++ [last], Bare text
  names : ∀ done spot rest, found = done ++ spot :: rest → IsVariable spot.name ∧
    ∀ more, more ≠ [] → more <+: spot.closing ++ (rest.flatMap Spot.written ++ last) →
      ¬IsVariable (spot.name ++ more)

theorem takeSpot_eq {spot : Spot} (h : takeSpot before cs = some (spot, after)) :
    spot.before = before ∧ cs = spot.opening ++ (spot.name ++ (spot.closing ++ after)) ∧
      takeVariable (spot.name ++ (spot.closing ++ after)) = some (spot.name, spot.closing ++ after) := by
  obtain ⟨⟨name, rest⟩, htake, hspot⟩ := Option.map_eq_some_iff.1 h
  obtain ⟨rfl, rfl⟩ := Prod.mk.inj hspot
  obtain ⟨htext, -⟩ := isVariable_of_takeVariable htake
  have hclosing : (if decide (rest.head? = some '\x7d') then ['\x7d'] else []) ++ dropClosing rest
      = rest := by
    cases rest with
    | nil => rfl
    | cons c rest => unfold dropClosing; grind
  have hopening : (if decide (cs.head? = some '\x7b') then ['\x7b'] else []) ++ (name ++ rest) = cs := by
    rw [← htext]
    cases cs with
    | nil => rfl
    | cons c cs => grind
  rw [htext] at htake
  refine ⟨rfl, ?_, ?_⟩
  · simp only [Spot.opening, Spot.closing, hclosing, hopening]
  · simpa only [Spot.closing, hclosing] using htake

theorem takeName_of_takeSpot (h : takeSpot before cs = none) : takeName cs = none := by
  rw [takeSpot, Option.map_eq_none_iff] at h
  split at h
  case isTrue hopened =>
    unfold takeName
    grind
  case isFalse => simpa [takeVariable] using h

/-- The variables that are found cut the text, if what was passed since the last one, with
the next character, has no `$` that begins one. -/
theorem spotsFrom_cuts (before cs : List Char) (hclean : Bare (before.reverse ++ cs.take 1)) :
    Cuts (before.reverse ++ cs) (spotsFrom before cs).1 (spotsFrom before cs).2 := by
  fun_induction spotsFrom before cs with
  | case1 before =>
    refine ⟨by simp, by simpa using hclean, ?_⟩
    intro done spot rest h
    simp at h
  | case2 before c rest spot after h _ found last hfound ih =>
    rw [hfound] at ih
    obtain ⟨hbefore, hcs, htake⟩ := takeSpot_eq h
    have hstart : Bare ([].reverse ++ after.take 1) := by
      cases after <;> simp
    have hcuts := ih hstart
    have hwhole : found.flatMap Spot.written ++ last = after := hcuts.whole
    refine ⟨?_, ?_, ?_⟩
    · rw [flatMap_cons, append_assoc, hwhole, Spot.written, hbefore, hcs]
      simp only [append_assoc]
    · refine forall_mem_cons.2 ⟨?_, hcuts.between⟩
      rw [hbefore]
      exact hclean.left_of_append
    · intro done spot' rest' hparts
      rcases done with _ | ⟨first, done⟩
      · cases hparts
        refine ⟨(isVariable_of_takeVariable htake).2, ?_⟩
        -- A longer variable would have been taken as a whole.
        rintro more hmore ⟨others, hothers⟩ hform
        rw [hwhole] at hothers
        rw [← hothers, ← append_assoc] at htake
        have hlength := length_le_of_takeVariable hform htake
        rw [length_append] at hlength
        exact hmore (length_eq_zero_iff.1 (by omega))
      · exact hcuts.names done spot' rest' (cons.inj hparts).2
  | case3 before c rest h ih =>
    have hnext : Bare ((c :: before).reverse ++ rest.take 1) := by
      rw [reverse_cons]
      cases rest with
      | nil => simpa using hclean
      | cons d rest =>
        refine isChain_append.2 ⟨by simpa using hclean, by simp, ?_⟩
        intro a ha b hb hdollar
        have hname := takeName_of_takeSpot h
        simp at ha hb
        subst ha hb hdollar
        by_contra hbegins
        simp [takeName, hbegins] at hname
    simpa using ih hnext

theorem spots_cuts (cs : List Char) : Cuts cs (spots cs).1 (spots cs).2 := by
  refine spotsFrom_cuts [] cs ?_
  cases cs <;> simp

/-! ### The pieces of a text -/

theorem takeBraced_eq (before cs : List Char) :
    takeBraced cs = (takeSpot before cs).map fun p => (p.1.name, p.2) := by
  unfold takeBraced takeSpot
  split
  case h_1 cs => simp [Function.comp_def]
  case h_2 hne =>
    have hopened : cs.head? ≠ some '\x7b' := by
      intro hhead
      obtain ⟨rest, rfl⟩ := head?_eq_some_iff.1 hhead
      exact hne rest rfl
    simp [hopened, Function.comp_def]

theorem splitFrom_eq (before cs : List Char) :
    splitFrom before cs = alternating (spotsFrom before cs).1 (spotsFrom before cs).2 := by
  fun_induction spotsFrom before cs with
  | case1 before => rw [splitFrom]; rfl
  | case2 before c rest spot after hspot _ found last hfound ih =>
    have htake : takeBraced (c :: rest) = some (spot.name, after) := by
      rw [takeBraced_eq before.reverse, hspot]
      rfl
    rw [hfound] at ih
    rw [splitFrom]
    split
    case h_1 hsome =>
      rw [htake] at hsome
      cases hsome
      rw [ih, alternating, (takeSpot_eq hspot).1]
    case h_2 hnone =>
      rw [htake] at hnone
      cases hnone
  | case3 before c rest hspot ih =>
    have htake : takeBraced (c :: rest) = none := by
      rw [takeBraced_eq before.reverse, hspot]
      rfl
    rw [splitFrom]
    split
    case h_1 hsome =>
      rw [htake] at hsome
      cases hsome
    case h_2 => exact ih

theorem length_alternating (found : List Spot) (last : List Char) :
    (alternating found last).length = 2 * found.length + 1 := by
  induction found with
  | nil => rfl
  | cons spot found ih =>
    rw [alternating, length_cons, length_cons, ih, length_cons]
    omega

/-- The pieces of a text are texts and variables in turn, and one text more.  They are
cut out of the text without loss, no variable is missed, and each one is as long as it
can be. -/
theorem splitVariables_cuts (cs : List Char) : ∃ found last,
    splitVariables cs = alternating found last ∧
      (splitVariables cs).length = 2 * found.length + 1 ∧ Cuts cs found last := by
  have hsplit : splitVariables cs = alternating (spots cs).1 (spots cs).2 := splitFrom_eq [] cs
  refine ⟨(spots cs).1, (spots cs).2, hsplit, ?_, spots_cuts cs⟩
  rw [hsplit, length_alternating]

end PageScript.Literal
