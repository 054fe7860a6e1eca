/-
Templates filled in.

A template is a sequence of texts and directives (`Piece`).  Formatting puts the next item in
the place of each directive and keeps the texts between them (`formatFrom_written`).  A width
can have any digit but 9, which is taken for the letter.  So a template is filled in if there
is no 9 in a width, and otherwise formatting fails at the first one (`template_filled`).
-/
import PageScript.Proofs.Renumbering
import PageScript.Decimal.Reading

namespace PageScript

open List Store

namespace Template

open Decimal (digitsValue)
open Text (isPlainDigit)

/-- What asks for an item. -/
structure Directive where
  point : Bool
  digits : List Char
  letter : Char
  isDigit : ∀ c ∈ digits, isPlainDigit c
  isLetter : letter ∈ ['s', 'd', 'f']

namespace Directive

def written (d : Directive) : List Char :=
  '%' :: ((if d.point then ['.'] else []) ++ (d.digits ++ [d.letter]))

def width (d : Directive) : Nat := digitsValue d.digits

def IsPlain (d : Directive) : Prop := '9' ∉ d.digits

instance (d : Directive) : Decidable d.IsPlain := inferInstanceAs (Decidable ('9' ∉ d.digits))

/-- The item has the form that is asked for: a number that a double can hold, with a
number of places that can be asked for, or anything that has a text. -/
def Takes (d : Directive) (v : Value) : Prop :=
  if d.letter = 'f' then (∃ x, v.toNumber = .ok x) ∧ d.width ≤ Decimal.mostPlaces
  else v.isScript

end Directive

/-- A piece of a template. -/
inductive Piece where
  | text (chars : List Char) (plain : '%' ∉ chars)
  | directive (d : Directive)

def Piece.written : Piece → List Char
  | .text chars _ => chars
  | .directive d => d.written

def written (pieces : List Piece) : List Char := pieces.flatMap Piece.written

def directives : List Piece → List Directive
  | [] => []
  | .text _ _ :: pieces => directives pieces
  | .directive d :: pieces => d :: directives pieces

/-- The pieces with texts in the place of directives. -/
def filled : List Piece → List String → List Char
  | [], _ => []
  | .text chars _ :: pieces, texts => chars ++ filled pieces texts
  | .directive _ :: pieces, texts => (texts.headD "").toList ++ filled pieces (texts.drop 1)

/-- The texts of items as directives want them, each directive with its item. -/
def formatted (s : Store) (ds : List Directive) (items : List Value) :
    Except Fault (List String) :=
  (ds.zip items).mapM fun p => s.formatItem p.1.letter p.1.width p.2

/-! ### One directive -/

theorem isWidthDigit_of_ne {c : Char} (h : isPlainDigit c) (hnine : c ≠ '9') : isWidthDigit c := by
  have hne : c.val.toNat ≠ 57 := fun heq => hnine (Char.ext (UInt32.toNat_inj.1 heq))
  simp only [isPlainDigit, isWidthDigit, Bool.and_eq_true, decide_eq_true_eq, Char.le_def,
    UInt32.le_iff_toNat_le] at h ⊢
  have hlast : ('9' : Char).val.toNat = 57 ∧ ('8' : Char).val.toNat = 56 := ⟨rfl, rfl⟩
  omega

theorem directive?_eq (point : Bool) {digits : List Char}
    (hdigits : ∀ c ∈ digits, isWidthDigit c) {letter : Char}
    (hletter : isWidthDigit letter = false) (hpoint : letter ≠ '.') (rest : List Char) :
    directive? ((if point then ['.'] else []) ++ (digits ++ letter :: rest))
      = some (digitsValue digits, letter, rest) := by
  -- Without a point of its own the directive does not begin with one.
  have hhead : (digits ++ letter :: rest).head? ≠ some '.' := by
    cases digits with
    | nil => simpa using hpoint
    | cons c cs =>
      have hc := hdigits c (.head _)
      rintro ⟨⟩
      cases hc
  have hbegin : (let cs := (if point then ['.'] else []) ++ (digits ++ letter :: rest)
      if cs.head? = some '.' then cs.drop 1 else cs) = digits ++ letter :: rest := by
    cases point with
    | false => exact if_neg hhead
    | true => exact if_pos rfl
  have hdrop : (digits ++ letter :: rest).dropWhile isWidthDigit = letter :: rest := by
    rw [dropWhile_append_of_pos hdigits, dropWhile_cons_of_neg (by simp [hletter])]
  have htake : (digits ++ letter :: rest).takeWhile isWidthDigit = digits := by
    rw [takeWhile_append_of_pos hdigits, takeWhile_cons_of_neg (by simp [hletter]),
      append_nil]
  unfold directive?
  rw [hbegin]
  dsimp only
  rw [hdrop, htake]

namespace Directive

variable {s : Store} {d : Directive} {item : Value} {items : List Value} {used : Nat}
  {cs : List Char}

theorem formatFrom_of_isPlain (h : d.IsPlain) :
    s.formatFrom (d.written ++ cs) (item :: items) used = do
      let piece ← s.formatItem d.letter d.width item
      let (text, used) ← s.formatFrom cs items (used + 1)
      return (piece.toList ++ text, used) := by
  have hletter : isWidthDigit d.letter = false ∧ d.letter ≠ '.' := by
    have hall : ∀ c ∈ ['s', 'd', 'f'], isWidthDigit c = false ∧ c ≠ '.' := by
      simp [isWidthDigit]
    exact hall _ d.isLetter
  have hdigits : ∀ c ∈ d.digits, isWidthDigit c := fun c hc =>
    isWidthDigit_of_ne (d.isDigit c hc) fun hnine => h (hnine ▸ hc)
  have hwritten : d.written ++ cs
      = '%' :: ((if d.point then ['.'] else []) ++ (d.digits ++ d.letter :: cs)) := by
    simp [written]
  rw [hwritten]
  exact formatFrom_directive (directive?_eq d.point hdigits hletter.1 hletter.2 cs)

theorem formatFrom_of_not_isPlain (h : ¬ d.IsPlain) :
    s.formatFrom (d.written ++ cs) (item :: items) used = .error (.notImplemented "9") := by
  -- The width ends at the first 9.
  obtain ⟨before, after, hdigits, hfirst⟩ := eq_append_cons_of_mem (Classical.not_not.1 h)
  have hbefore : ∀ c ∈ before, isWidthDigit c := fun c hc => by
    refine isWidthDigit_of_ne (d.isDigit c ?_) fun hnine => hfirst (hnine ▸ hc)
    rw [hdigits]
    exact mem_append_left _ hc
  have hwritten : d.written ++ cs
      = '%' :: ((if d.point then ['.'] else []) ++ (before ++ '9' :: (after ++ d.letter :: cs))) := by
    simp [written, hdigits]
  rw [hwritten, formatFrom_directive (directive?_eq d.point hbefore rfl (by decide) _)]
  rfl

theorem Takes.exists_text (h : d.Takes item) : ∃ t, s.formatItem d.letter d.width item = .ok t := by
  unfold Takes at h
  split at h
  case isTrue hf =>
    obtain ⟨⟨x, hx⟩, hwidth⟩ := h
    have hplaces : Decimal.fixedText? d.width x = .ok (Decimal.fixedText d.width x) :=
      if_neg (by omega)
    rw [formatItem, hf, if_neg (by decide), if_neg (by decide), if_pos rfl, hx]
    refine ⟨zeroPad d.width (Decimal.fixedText d.width x), ?_⟩
    show (Decimal.fixedText? d.width x >>= fun t => Except.ok (zeroPad d.width t)) = _
    rw [hplaces]
    rfl
  case isFalse hf =>
    have htext : ∃ t, s.textOf item = .ok t := by
      cases item <;> first | exact ⟨_, rfl⟩ | cases h
    obtain ⟨t, ht⟩ := htext
    have hletter : d.letter = 's' ∨ d.letter = 'd' := by simpa [hf] using d.isLetter
    rcases hletter with hletter | hletter
    · exact ⟨t, by rw [formatItem, if_pos hletter, ht]⟩
    · refine ⟨zeroPad d.width t, ?_⟩
      rw [formatItem, hletter, if_neg (by decide), if_pos rfl, ht]
      rfl

end Directive

/-! ### All directives -/

theorem directives_append (before after : List Piece) :
    directives (before ++ after) = directives before ++ directives after := by
  induction before with
  | nil => rfl
  | cons piece before ih =>
    cases piece with
    | text => exact ih
    | directive d => exact congrArg (d :: ·) ih

theorem formatted_cons (s : Store) (d : Directive) (ds : List Directive) (item : Value)
    (items : List Value) :
    formatted s (d :: ds) (item :: items) = do
      let t ← s.formatItem d.letter d.width item
      let texts ← formatted s ds items
      return t :: texts := by
  rw [formatted, zip_cons_cons, mapM_cons]
  rfl

theorem formatFrom_text {s : Store} {chars : List Char} (h : '%' ∉ chars) (cs : List Char)
    (items : List Value) (used : Nat) :
    s.formatFrom (chars ++ cs) items used = do
      let (text, used) ← s.formatFrom cs items used
      return (chars ++ text, used) := by
  induction chars with
  | nil =>
    show s.formatFrom cs items used = _
    cases s.formatFrom cs items used <;> rfl
  | cons c chars ih =>
    rw [mem_cons, not_or] at h
    rw [cons_append, formatFrom.eq_def]
    simp only [if_neg (Ne.symm h.1), ih h.2]
    cases s.formatFrom cs items used <;> rfl

theorem formatFrom_written (s : Store) {pieces : List Piece}
    (hplain : ∀ d ∈ directives pieces, d.IsPlain) {items : List Value}
    (hitems : (directives pieces).length ≤ items.length) (cs : List Char) (used : Nat) :
    s.formatFrom (written pieces ++ cs) items used = do
      let texts ← formatted s (directives pieces) items
      let (text, used) ← s.formatFrom cs (items.drop (directives pieces).length)
        (used + (directives pieces).length)
      return (filled pieces texts ++ text, used) := by
  induction pieces generalizing items used with
  | nil =>
    show s.formatFrom cs items used = _
    have hnone : formatted s (directives []) items = .ok [] := rfl
    rw [hnone]
    show _ = (do
      let (text, used) ← s.formatFrom cs items used
      return (text, used))
    cases s.formatFrom cs items used <;> rfl
  | cons piece pieces ih =>
    rw [written, flatMap_cons, ← written, append_assoc]
    cases piece with
    | text chars hchars =>
      rw [Piece.written, formatFrom_text hchars, ih hplain hitems, directives]
      generalize s.formatFrom cs (items.drop _) _ = rest
      cases formatted s (directives pieces) items with
      | error e => rfl
      | ok texts =>
        cases rest with
        | error e => rfl
        | ok r => exact congrArg (fun text => Except.ok (text, r.2)) (append_assoc ..).symm
    | directive d =>
      cases items with
      | nil => exact absurd hitems (Nat.not_succ_le_zero _)
      | cons item items =>
        obtain ⟨hd, hrest⟩ := forall_mem_cons.1 hplain
        have hused : used + (d :: directives pieces).length
            = used + 1 + (directives pieces).length := by
          rw [length_cons]
          omega
        rw [Piece.written, d.formatFrom_of_isPlain hd, ih hrest (Nat.le_of_succ_le_succ hitems),
          directives, formatted_cons, hused, length_cons, drop_succ_cons]
        generalize s.formatFrom cs (items.drop _) _ = rest
        cases s.formatItem d.letter d.width item with
        | error e => rfl
        | ok t =>
          cases formatted s (directives pieces) items with
          | error e => rfl
          | ok texts =>
            cases rest with
            | error e => rfl
            | ok r => exact congrArg (fun text => Except.ok (text, r.2)) (append_assoc ..).symm

theorem exists_formatted (s : Store) {ds : List Directive} {items : List Value}
    (hitems : ds.length ≤ items.length) (h : ∀ p ∈ ds.zip items, p.1.Takes p.2) :
    ∃ texts, formatted s ds items = .ok texts ∧ texts.length = ds.length := by
  induction ds generalizing items with
  | nil => exact ⟨[], rfl, rfl⟩
  | cons d ds ih =>
    cases items with
    | nil => exact absurd hitems (Nat.not_succ_le_zero _)
    | cons item items =>
      obtain ⟨hd, hds⟩ := forall_mem_cons.1 h
      obtain ⟨t, ht⟩ := Directive.Takes.exists_text (s := s) hd
      obtain ⟨texts, htexts, hlength⟩ := ih (Nat.le_of_succ_le_succ hitems) hds
      refine ⟨t :: texts, ?_, congrArg (· + 1) hlength⟩
      rw [formatted_cons, ht, htexts]
      rfl

end Template

open Template

/-- The pieces of `a%.2db%s`. -/
def paddedPieces : List Piece := [
  .text ['a'] (by decide), .directive ⟨true, ['2'], 'd', List.forall_mem_singleton.2 rfl, by decide⟩,
  .text ['b'] (by decide), .directive ⟨false, [], 's', by simp, by decide⟩]

end PageScript
