/-
Variables inside a string literal.

A variable is a `$`, a name and any number of indexes in brackets, each a
run of digits or a variable without index.  `splitVariables` cuts a text
into the pieces between its variables and the variables themselves, in
turn, starting and ending with a piece.  One opening brace right before a
variable and one closing brace right after it belong to neither.
-/
import PageScript.Text.Digit

namespace PageScript.Literal

open Text (isPlainDigit)

/-- Whether a name can begin with this. -/
def isNameStart (c : Char) : Bool :=
  ('a' ≤ c && c ≤ 'z') || ('A' ≤ c && c ≤ 'Z') || c == '_'

/-- Whether a name can go on with this. -/
def isNamePart (c : Char) : Bool := isNameStart c || isPlainDigit c

/-- The `$` and the name at the start of a text, and what follows them. -/
def takeName : List Char → Option (List Char × List Char)
  | '$' :: c :: cs =>
    if isNameStart c then some ('$' :: c :: cs.takeWhile isNamePart, cs.dropWhile isNamePart)
    else none
  | _ => none

/-- What may stand between brackets at the start of a text: digits or a
variable name. -/
def takeIndex (cs : List Char) : Option (List Char × List Char) :=
  let digits := cs.takeWhile isPlainDigit
  if digits.isEmpty then takeName cs else some (digits, cs.dropWhile isPlainDigit)

/-- An index in brackets at the start of a text, and what follows it. -/
def takeBracket : List Char → Option (List Char × List Char)
  | '[' :: cs =>
    match takeIndex cs with
    | some (index, ']' :: rest) => some ('[' :: (index ++ [']']), rest)
    | _ => none
  | _ => none

theorem takeName_length {cs name rest : List Char} (h : takeName cs = some (name, rest)) :
    rest.length < cs.length := by
  unfold takeName at h
  split at h
  · next c cs =>
    split at h
    · simp only [Option.some.injEq, Prod.mk.injEq] at h
      have := (List.dropWhile_sublist isNamePart (l := cs)).length_le
      simp only [← h.2, List.length_cons]
      omega
    · cases h
  · cases h

theorem takeIndex_length {cs index rest : List Char} (h : takeIndex cs = some (index, rest)) :
    rest.length ≤ cs.length := by
  unfold takeIndex at h
  simp only at h
  split at h
  · exact Nat.le_of_lt (takeName_length h)
  · simp only [Option.some.injEq, Prod.mk.injEq] at h
    rw [← h.2]
    exact (List.dropWhile_sublist isPlainDigit).length_le

theorem takeBracket_length {cs bracket rest : List Char}
    (h : takeBracket cs = some (bracket, rest)) : rest.length < cs.length := by
  unfold takeBracket at h
  split at h
  · next cs =>
    split at h
    · next index rest' hi =>
      simp only [Option.some.injEq, Prod.mk.injEq] at h
      have := takeIndex_length hi
      simp only [List.length_cons] at this
      simp only [← h.2, List.length_cons]
      omega
    · cases h
  · cases h

/-- All indexes in brackets at the start of a text, and what follows them. -/
def takeBrackets (cs : List Char) : List Char × List Char :=
  match h : takeBracket cs with
  | some (bracket, rest) =>
    have : rest.length < cs.length := takeBracket_length h
    let (more, rest) := takeBrackets rest
    (bracket ++ more, rest)
  | none => ([], cs)
termination_by cs.length

theorem takeBrackets_length (cs : List Char) : (takeBrackets cs).2.length ≤ cs.length := by
  fun_induction takeBrackets cs with
  | case1 cs bracket rest h _ more rest' heq ih =>
    rw [heq] at ih
    have := takeBracket_length h
    simp only at ih ⊢
    omega
  | case2 cs h => exact Nat.le_refl _

/-- The variable at the start of a text with its indexes, and what follows it. -/
def takeVariable (cs : List Char) : Option (List Char × List Char) :=
  (takeName cs).map fun (name, rest) =>
    let (brackets, rest) := takeBrackets rest
    (name ++ brackets, rest)

theorem takeVariable_length {cs v rest : List Char}
    (h : takeVariable cs = some (v, rest)) : rest.length < cs.length := by
  unfold takeVariable at h
  obtain ⟨⟨name, rest'⟩, hn, he⟩ := Option.map_eq_some_iff.1 h
  simp only [Prod.mk.injEq] at he
  have h₁ := takeName_length hn
  have h₂ := takeBrackets_length rest'
  rw [← he.2]
  omega

/-- What follows a closing brace, if there is one. -/
def dropClosing : List Char → List Char
  | '\x7d' :: cs => cs
  | cs => cs

theorem dropClosing_length (cs : List Char) : (dropClosing cs).length ≤ cs.length := by
  unfold dropClosing
  split <;> simp

/-- A variable at the start of a text, with or without braces around it. -/
def takeBraced : List Char → Option (List Char × List Char)
  | '\x7b' :: cs => (takeVariable cs).map fun (v, rest) => (v, dropClosing rest)
  | cs => (takeVariable cs).map fun (v, rest) => (v, dropClosing rest)

theorem takeBraced_length {cs v rest : List Char}
    (h : takeBraced cs = some (v, rest)) : rest.length < cs.length := by
  unfold takeBraced at h
  split at h
  all_goals
    obtain ⟨⟨w, rest'⟩, hv, he⟩ := Option.map_eq_some_iff.1 h
    simp only [Prod.mk.injEq] at he
    have h₁ := takeVariable_length hv
    have h₂ := dropClosing_length rest'
    rw [← he.2]
    grind

/-- The pieces of a text and the variables between them; `before` is what
was passed since the last variable, in reverse. -/
def splitFrom (before cs : List Char) : List (List Char) :=
  match cs with
  | [] => [before.reverse]
  | c :: rest =>
    match h : takeBraced (c :: rest) with
    | some (v, after) =>
      have : after.length < (c :: rest).length := takeBraced_length h
      before.reverse :: v :: splitFrom [] after
    | none => splitFrom (c :: before) rest
termination_by cs.length
decreasing_by
  · exact this
  · exact Nat.lt_succ_self _

/-- The pieces of a text and the variables between them. -/
def splitVariables (cs : List Char) : List (List Char) := splitFrom [] cs

def variableName? (cs : List Char) : Option (List Char) :=
  match takeName cs with
  | some (name, []) => some name
  | _ => none

end PageScript.Literal
