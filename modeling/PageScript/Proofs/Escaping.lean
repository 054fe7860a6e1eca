/-
Escapes and what they stand for.

Removing escapes passes some character that is no backslash, which ends any run of
backslashes (`endRun_append`), or two backslashes (`endRun_pair`).  So the texts that end
in an odd number of backslashes fail (`unescape_eq_error_iff`).  There is a literal in
single quotes for every text (`escaped_literal`).
-/
import PageScript.Proofs.Resolution

namespace PageScript

open List

namespace Literal

/-! ### Where removing escapes fails -/

/-- The number of backslashes that a text ends in. -/
def endRun (cs : List Char) : Nat := (cs.reverse.takeWhile (· == '\x5c')).length

theorem endRun_append (before : List Char) {c : Char} (hc : c ≠ '\x5c') (cs : List Char) :
    endRun (before ++ c :: cs) = endRun cs := by
  have hnone : (c :: before.reverse).takeWhile (· == '\x5c') = [] := by simp [hc]
  rw [endRun, endRun, reverse_append, reverse_cons, append_assoc,
    singleton_append, takeWhile_append, hnone, append_nil]
  split
  case isTrue hall => exact hall.symm
  case isFalse => rfl

theorem endRun_pair (cs : List Char) : endRun ('\x5c' :: '\x5c' :: cs) % 2 = endRun cs % 2 := by
  rw [endRun, endRun, reverse_cons, reverse_cons, append_assoc,
    takeWhile_append]
  split
  case isTrue hall =>
    rw [hall, length_append]
    exact Nat.add_mod_right _ 2
  case isFalse => rfl

theorem ne_backslash_of_isOctal {c : Char} (h : isOctal c) : c ≠ '\x5c' := by
  rintro rfl
  cases h

theorem endRun_octalRun (limit n : Nat) (cs : List Char) :
    endRun (octalRun limit n cs).2 = endRun cs := by
  fun_induction octalRun limit n cs with
  | case1 | case2 | case4 => rfl
  | case3 limit n c cs hoctal ih =>
    exact ih.trans (endRun_append [] (ne_backslash_of_isOctal hoctal) cs).symm

theorem unescape_eq_error_iff (cs : List Char) (e : Fault) :
    unescape cs = .error e ↔ e = .complaint .danglingBackslash ∧ endRun cs % 2 = 1 := by
  have hmap : ∀ {x : Except Fault (List Char)} {f : List Char → List Char},
      x.map f = .error e ↔ x = .error e := by
    intro x f
    cases x <;> simp [Except.map]
  fun_induction unescape cs with
  | case1 => simp [endRun]
  | case2 => simp [endRun, eq_comm]
  | case3 c rest hoctal ih =>
    have hrun : endRun ('\x5c' :: c :: rest) = endRun rest :=
      endRun_append ['\x5c'] (ne_backslash_of_isOctal hoctal) rest
    rw [endRun_octalRun] at ih
    rw [hrun]
    exact hmap.trans ih
  | case4 c rest _ ih =>
    have hrun : endRun ('\x5c' :: c :: rest) % 2 = endRun rest % 2 := by
      by_cases hc : c = '\x5c'
      · rw [hc, endRun_pair]
      · exact congrArg (· % 2) (endRun_append ['\x5c'] hc rest)
    rw [hrun]
    exact hmap.trans ih
  | case5 c rest hlone hpair ih =>
    -- A backslash would be alone or have something behind it.
    have hc : c ≠ '\x5c' := by
      rintro rfl
      cases rest with
      | nil => exact hlone rfl rfl
      | cons e rest => exact hpair e rest rfl rfl
    have hrun : endRun (c :: rest) = endRun rest := endRun_append [] hc rest
    rw [hrun]
    exact hmap.trans ih

/-! ### Escaping -/

/-- The characters that are escaped, each with what stands behind its backslash. -/
def escapes : List (Char × Char) := [
  ('\x5c', '\x5c'), ('\x27', '\x27'), ('\x22', '\x22'), ('\n', 'n'), ('\t', 't'), ('\r', 'r'),
  ('\x08', 'b'), ('\x0c', 'f'), ('\x0b', 'v'), ('\x07', 'a')]

def escapeChar (c : Char) : List Char :=
  match escapes.lookup c with
  | some e => ['\x5c', e]
  | none => [c]

/-- A text with escapes for the characters that need one. -/
def escape (cs : List Char) : List Char := cs.flatMap escapeChar

theorem unescape_escapeChar (c : Char) (cs : List Char) :
    unescape (escapeChar c ++ cs) = (unescape cs).map (c :: ·) := by
  unfold escapeChar
  split
  case h_1 e he =>
    have hall : ∀ p ∈ escapes, isOctal p.2 = false ∧ escapedChar p.2 = [p.1] := by decide
    obtain ⟨before, after, hescapes, -⟩ := lookup_eq_some_iff.1 he
    obtain ⟨hoctal, hstands⟩ := hall (c, e) (by simp [hescapes])
    show unescape ('\x5c' :: e :: cs) = _
    rw [unescape, hoctal, hstands]
    rfl
  case h_2 hnone =>
    have hc : c ≠ '\x5c' := by
      rintro rfl
      cases hnone
    rw [singleton_append, unescape]
    · rintro rfl
      exact absurd rfl hc
    · rintro e rest rfl
      exact absurd rfl hc

theorem unescape_escape (cs : List Char) : unescape (escape cs) = .ok cs := by
  induction cs with
  | nil => rw [escape, flatMap_nil, unescape]
  | cons c cs ih =>
    rw [escape, flatMap_cons, unescape_escapeChar, ← escape, ih]
    rfl

def singleQuoted (cs : List Char) : String := String.ofList ('\x27' :: cs ++ ['\x27'])

theorem unquote_singleQuoted (cs : List Char) :
    unquote (singleQuoted cs).toList = .ok (cs, .single) := by
  have hlast : ('\x27' :: cs ++ ['\x27']).getLast? = some '\x27' := getLast?_concat
  rw [singleQuoted, String.toList_ofList]
  show (if some '\x27' = some '\x27' ∧ ('\x27' :: cs ++ ['\x27']).getLast? = some '\x27'
    then Except.ok ((('\x27' :: cs ++ ['\x27']).dropLast.drop 1), Quoting.single)
    else Except.error Fault.checkFailed) = _
  rw [if_pos ⟨rfl, hlast⟩, dropLast_concat]
  rfl

end Literal

open Literal Reading

/-- Removing escapes fails on a text that ends in an odd number of backslashes and on
no other, it undoes escaping, and the literal in single quotes of an escaped text is
read as this text. -/
theorem escaped_literal :
    (∀ cs e, unescape cs = .error e ↔
      e = .complaint .danglingBackslash ∧ endRun cs % 2 = 1) ∧
    (∀ cs, unescape (escape cs) = .ok cs) ∧
    ∀ (d : Declarations) (id : Nat) (rest : List Nat), d.opened = id :: rest →
      id < d.scopes.size → ∀ cs : List Char, ∃ place d',
        (Part.ofTree (.leaf "SINGLESTRING" (singleQuoted (escape cs)))).read.run d
          = .ok (.constantText (String.ofList cs) place) d' ∧
        (d'.scope id).constants[place]? = some (.text (String.ofList cs)) := by
  refine ⟨unescape_eq_error_iff, unescape_escape, fun d id rest hopened hid cs => ?_⟩
  obtain ⟨d', hdeclare, -, -, hscope⟩ := exists_declared hopened hid (·.addText (String.ofList cs))
  refine ⟨_, d', ?_, hscope ▸ constant_of_addText (.refl _)⟩
  show (readText (singleQuoted (escape cs))).run d = _
  rw [readText, unquote_singleQuoted]
  show (ofExcept (unescape (escape cs)) >>= _ : Reading Node).run d = _
  rw [unescape_escape]
  show (constantText (String.ofList cs)).run d = _
  rw [constantText, EStateM.run_bind, hdeclare]
  rfl

/-- `'it\'s\n\\'` -/
theorem escaped_literal_quote :
    singleQuoted (escape "it's\n\\".toList) = "'it\\'s\\n\\\\'" ∧
    ∃ place d', (Part.ofTree (.leaf "SINGLESTRING" "'it\\'s\\n\\\\'")).read.run
        { scopes := #[{}], opened := [0] } = .ok (.constantText "it's\n\\" place) d' ∧
      (d'.scope 0).constants[place]? = some (.text "it's\n\\") := by
  have hliteral : singleQuoted (escape "it's\n\\".toList) = "'it\\'s\\n\\\\'" := by decide
  obtain ⟨place, d', hrun, hplace⟩ := escaped_literal.2.2 { scopes := #[{}], opened := [0] } 0 []
    rfl Nat.one_pos "it's\n\\".toList
  rw [hliteral, String.ofList_toList] at hrun
  rw [String.ofList_toList] at hplace
  exact ⟨hliteral, place, d', hrun, hplace⟩

end PageScript
