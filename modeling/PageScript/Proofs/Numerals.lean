/-
Numerals and the integers they stand for.

A run of digits, with or without a minus, is read as a double (`Decimal.readFloat?_digits`),
and the integer that the double stands for is the constant if it fits into 64 bits
(`wholeNumber?_nearest`).  Otherwise the digits alone are read once more, so the constant
is positive.  `numeral_read` says for which numerals the constant is what is written.
-/
import Mathlib.Data.List.TakeWhile
import PageScript.Proofs.Resolution
import PageScript.Proofs.Rounding

namespace PageScript

open List

open Double (signed parts)
open Text (isPlainDigit)

variable {ds cs : List Char} {v : Nat}

namespace Decimal

/-! ### Reading digits -/

/-- A character that stands in a numeral as it is. -/
def IsBare (c : Char) : Prop := c.toNat < 127 ∧ Text.isSpacing c = false ∧ c ≠ '_'

theorem isBare_of_isPlainDigit {c : Char} (h : isPlainDigit c) : IsBare c := by
  simp only [isPlainDigit, Bool.and_eq_true, decide_eq_true_eq, Char.le_def,
    UInt32.le_iff_toNat_le] at h
  have hlow : 48 ≤ c.toNat := h.1
  have hhigh : c.toNat ≤ 57 := h.2
  refine ⟨by omega, ?_, ?_⟩
  · rw [Text.isSpacing,
      decide_eq_true (by omega : 9 ≤ c.toNat), decide_eq_false (by omega : ¬c.toNat ≤ 13),
      beq_eq_false_iff_ne.2 (by omega : c.toNat ≠ 32)]
    rfl
  · rintro rfl
    exact absurd hhigh (by decide)

theorem dropUnderscores_of_isBare (h : ∀ c ∈ cs, IsBare c) (last : Char) :
    dropUnderscores last cs = some cs := by
  induction cs generalizing last with
  | nil => rw [dropUnderscores]
  | cons c cs ih =>
    obtain ⟨hc, hcs⟩ := forall_mem_cons.1 h
    rw [dropUnderscores, ih hcs]
    · rfl
    · rintro rfl
      exact absurd rfl hc.2.2

theorem trimBy_of_isBare (h : ∀ c ∈ cs, IsBare c) : Text.trimBy Text.isSpacing cs = cs := by
  have hdrop : ∀ {cs : List Char}, (∀ c ∈ cs, IsBare c) → cs.dropWhile Text.isSpacing = cs := by
    intro cs h
    cases cs with
    | nil => rfl
    | cons c cs => rw [dropWhile_cons, if_neg (by simp [(h c mem_cons_self).2.1])]
  rw [Text.trimBy, hdrop h, hdrop (fun c hc => h c (mem_reverse.1 hc)), reverse_reverse]

theorem numeral?_of_isBare (h : ∀ c ∈ cs, IsBare c) : numeral? (String.ofList cs) = some cs := by
  have hplain : cs.map plain = cs :=
    (map_congr_left fun c hc => if_pos (h c hc).1).trans (map_id' cs)
  rw [numeral?, String.toList_ofList, hplain, trimBy_of_isBare h, dropUnderscores_of_isBare h]

theorem takeSign_of_isDigits (h : isDigits ds) : takeSign ds = (false, ds) := by
  have hfirst : ∀ {c cs}, isPlainDigit c = false → ds ≠ c :: cs := by
    rintro c cs hc rfl
    rw [isDigits, all_cons, hc] at h
    cases h
  rw [takeSign]
  · exact fun cs => hfirst rfl
  · exact fun cs => hfirst rfl

theorem magnitude?_of_isDigits (h : isDigits ds) : magnitude? ds = some (digitsValue ds, 0) := by
  obtain ⟨hne, hall⟩ := Bool.and_eq_true_iff.1 h
  have htake : ds.takeWhile isPlainDigit = ds :=
    takeWhile_eq_self_iff.2 (all_eq_true.1 hall)
  have hdrop : ds.dropWhile isPlainDigit = [] :=
    dropWhile_eq_nil_iff.2 (all_eq_true.1 hall)
  rw [magnitude?, htake, hdrop]
  dsimp only
  rw [append_nil, if_neg (by simpa using hne)]
  rfl

/-- The text of digits, with a minus before them or without one. -/
def signedText (negative : Bool) (ds : List Char) : List Char :=
  if negative then '-' :: ds else ds

theorem readFloat?_digits (negative : Bool) (h : isDigits ds) :
    readFloat? (String.ofList (signedText negative ds))
      = some (withSign negative (nearest (digitsValue ds) 0)) := by
  have hbare : ∀ c ∈ ds, IsBare c := fun c hc =>
    isBare_of_isPlainDigit (all_eq_true.1 (Bool.and_eq_true_iff.1 h).2 c hc)
  have hsigned : ∀ c ∈ signedText negative ds, IsBare c := by
    cases negative with
    | false => exact hbare
    | true => exact forall_mem_cons.2 ⟨by unfold IsBare; decide, hbare⟩
  have htake : takeSign (signedText negative ds) = (negative, ds) := by
    cases negative with
    | false => exact takeSign_of_isDigits h
    | true => rfl
  rw [readFloat?, numeral?_of_isBare hsigned]
  simp only [Option.bind_eq_bind, Option.bind_some, htake, magnitude?_of_isDigits h]
  rfl

end Decimal

open Decimal Reading

/-! ### The constant of a numeral -/

section Whole

variable {x : Float} {negative : Bool} {m n : Nat} {q : Int}

theorem truncate_of_parts (hparts : parts x = .finite negative m q)
    (hvalue : m * 2 ^ q.toNat = n * 2 ^ (-q).toNat) :
    Double.truncate x = .ok (signed negative n) := by
  rw [Double.truncate, hparts]
  dsimp only
  rw [Nat.pow_eq, Nat.pow_eq]
  split_ifs with hq
  · rw [hvalue, show (-q).toNat = 0 by omega, Nat.pow_zero, Nat.mul_one]
  · rw [show q.toNat = 0 by omega, Nat.pow_zero, Nat.mul_one] at hvalue
    rw [hvalue, Nat.mul_div_cancel _ (Nat.two_pow_pos _)]

theorem isIntegral_of_parts (hparts : parts x = .finite negative m q)
    (hvalue : m * 2 ^ q.toNat = n * 2 ^ (-q).toNat) : Double.isIntegral x = true := by
  rw [Double.isIntegral, hparts]
  dsimp only
  rw [Bool.or_eq_true, decide_eq_true_eq, beq_iff_eq, Nat.pow_eq]
  by_cases hq : 0 ≤ q
  · exact .inl hq
  · rw [show q.toNat = 0 by omega, Nat.pow_zero, Nat.mul_one] at hvalue
    exact .inr (hvalue ▸ Nat.mul_mod_left _ _)

end Whole

theorem inWordRange_iff (n : Int) : inWordRange n ↔ -2 ^ 63 ≤ n ∧ n < 2 ^ 63 := by
  rw [inWordRange, Bool.and_eq_true, decide_eq_true_eq, decide_eq_true_eq, wordLimit]
  omega

theorem not_inWordRange_of_le (negative : Bool) {n : Nat} (h : 2 ^ 64 ≤ n) :
    ¬inWordRange (signed negative n) := by
  rw [inWordRange_iff]
  cases negative <;> simp only [signed] <;> omega

theorem wholeNumber?_nearest (negative : Bool) (v : Nat) :
    wholeNumber? (withSign negative (nearest v 0))
      = if inWordRange (signed negative (onGrid v)) then .ok (some (signed negative (onGrid v)))
        else .error .tooLarge := by
  unfold wholeNumber?
  rcases parts_nearest negative v with ⟨m, q, hparts, hvalue⟩ | ⟨hparts, hlarge⟩
  · rw [truncate_of_parts hparts hvalue, isIntegral_of_parts hparts hvalue]
    show (if !inWordRange (signed negative (onGrid v)) then throw Fault.tooLarge
      else pure (some (signed negative (onGrid v))) : Except Fault (Option Int)) = _
    cases inWordRange (signed negative (onGrid v)) <;> rfl
  · have hne : onGrid v ≠ 0 := by
      intro hzero
      rw [hzero, Nat.log2_zero] at hlarge
      cases hlarge
    have hout := not_inWordRange_of_le negative
      ((Nat.le_log2 hne).1 (by omega : 64 ≤ (onGrid v).log2))
    rw [Double.truncate, hparts, if_neg hout]
    rfl

def Tree.numeral (minus digits : String) (negative : Bool) (ds : List Char) : Tree :=
  .branch "numericliteral"
    ((if negative then [.leaf minus "-"] else []) ++ [.leaf digits (String.ofList ds)])

def Double.HasSign (negative : Bool) (x : Float) : Prop :=
  parts x = .infinite negative ∨ ∃ m q, parts x = .finite negative m q

def Node.IsInt (s : Scope) (n : Int) (node : Node) : Prop :=
  ∃ place, node = .constantInt n place ∧ s.constants[place]? = some (.int n)

def Node.IsFloat (negative : Bool) (node : Node) : Prop :=
  ∃ x place, node = .constantFloat x place ∧ Double.HasSign negative x

/-- A node for what is written: an integer as it is, or a double with its sign. -/
def Node.IsFaithful (s : Scope) (n : Int) (node : Node) : Prop :=
  if inWordRange n then node.IsInt s n else node.IsFloat (decide (n < 0))

theorem read_numericliteral (children : List Tree) :
    (Part.ofTree (.branch "numericliteral" children)).read
      = readNumber "" (Part.ofTrees children) := by
  rw [Part.ofTree]
  rfl

theorem read_numeral (minus digits : String) (negative : Bool)
    (hds : isDigits ds) (hv : digitsValue ds = v) :
    (Part.ofTree (.numeral minus digits negative ds)).read
      = if inWordRange (signed negative (onGrid v)) then
          declare (·.addInt (signed negative (onGrid v))) >>= fun place =>
            pure (.constantInt (signed negative (onGrid v)) place)
        else declare (·.addFloat (nearest v 0)) >>= fun place =>
            pure (.constantFloat (nearest v 0) place) := by
  have hparts : ∃ children,
      Tree.numeral minus digits negative ds = .branch "numericliteral" children ∧
      String.join ((Part.ofTrees children).map Part.text)
        = String.ofList (signedText negative ds) ∧
      ((Part.ofTrees children).getLast?.map Part.text).getD "" = String.ofList ds := by
    cases negative with
    | false =>
      refine ⟨[.leaf digits (String.ofList ds)], rfl, ?_, rfl⟩
      show "" ++ String.ofList ds = String.ofList ds
      rw [String.empty_append]
    | true =>
      refine ⟨[.leaf minus "-", .leaf digits (String.ofList ds)], rfl, ?_, rfl⟩
      show "" ++ "-" ++ String.ofList ds = String.ofList (['-'] ++ ds)
      rw [String.ofList_append]
      rfl
  obtain ⟨children, htree, hall, hlast⟩ := hparts
  have hfirst := readFloat?_digits negative hds
  have hagain : readFloat? (String.ofList ds) = some (nearest v 0) :=
    hv ▸ readFloat?_digits false hds
  rw [hv] at hfirst
  rw [htree, read_numericliteral, readNumber, hall, hlast, hfirst, hagain, Option.map_some,
    wholeNumber?_nearest]
  cases inWordRange (signed negative (onGrid v)) <;> rfl

theorem Double.HasSign.unique {x : Float} {a b : Bool} (ha : HasSign a x) (hb : HasSign b x) :
    a = b := by
  rcases ha with ha | ⟨m, q, ha⟩ <;> rcases hb with hb | ⟨m', q', hb⟩ <;> rw [ha] at hb <;>
    cases hb <;> rfl

namespace Node

variable {s : Scope} {r n : Int} {node : Node}

theorem IsInt.isFaithful_iff (h : node.IsInt s r) :
    node.IsFaithful s n ↔ inWordRange n ∧ r = n := by
  obtain ⟨place, rfl, hplace⟩ := h
  unfold IsFaithful
  split_ifs with hn
  · refine ⟨?_, fun h => ⟨place, by rw [h.2], h.2 ▸ hplace⟩⟩
    rintro ⟨_, heq, -⟩
    cases heq
    exact ⟨hn, rfl⟩
  · refine ⟨?_, fun h => absurd h.1 hn⟩
    rintro ⟨_, _, heq, -⟩
    cases heq

theorem IsFloat.isFaithful_iff (h : node.IsFloat false) :
    node.IsFaithful s n ↔ ¬inWordRange n ∧ 0 ≤ n := by
  obtain ⟨x, place, rfl, hsign⟩ := h
  unfold IsFaithful
  split_ifs with hn
  · refine ⟨?_, fun h => absurd hn h.1⟩
    rintro ⟨_, heq, -⟩
    cases heq
  · constructor
    · rintro ⟨_, _, heq, hsign'⟩
      cases heq
      exact ⟨hn, Int.not_lt.1 (of_decide_eq_false (hsign'.unique hsign))⟩
    · exact fun h => ⟨x, place, rfl, by rwa [decide_eq_false (Int.not_lt.2 h.2)]⟩

end Node

theorem not_inWordRange_onGrid (h : ¬inWordRange v) : ¬inWordRange (onGrid v) := by
  rw [inWordRange_iff] at *
  have hlog : 63 ≤ v.log2 := (Nat.le_log2 (by omega)).2 (by omega)
  have hlog' : 63 ≤ (onGrid v).log2 := hlog.trans (log2_le_log2_onGrid (by omega))
  have hne : onGrid v ≠ 0 := by
    intro hzero
    rw [hzero, Nat.log2_zero] at hlog'
    cases hlog'
  have hle := (Nat.le_log2 hne).1 hlog'
  omega

theorem signed_inj {negative : Bool} {m n : Nat} :
    signed negative m = signed negative n ↔ m = n := by
  cases negative <;> simp [signed]

theorem isFaithful_iff {s : Scope} {node : Node} {negative : Bool}
    (h : if inWordRange (signed negative (onGrid v)) then node.IsInt s (signed negative (onGrid v))
      else node.IsFloat false) :
    node.IsFaithful s (signed negative v) ↔
      if inWordRange (signed negative v) then gap v ∣ v else negative = false := by
  rw [← onGrid_eq_iff]
  split_ifs at h with hgrid
  · rw [h.isFaithful_iff, signed_inj]
    split_ifs with hwritten
    · exact and_iff_right hwritten
    · refine ⟨fun h => absurd h.1 hwritten, ?_⟩
      rintro rfl
      exact absurd hgrid (not_inWordRange_onGrid hwritten)
  · rw [h.isFaithful_iff]
    split_ifs with hwritten
    · refine ⟨fun h => absurd hwritten h.1, fun h => ?_⟩
      rw [h] at hgrid
      exact absurd hwritten hgrid
    · rw [and_iff_right hwritten]
      cases negative with
      | false => exact iff_of_true (Int.natCast_nonneg v) rfl
      | true =>
        refine iff_of_false (fun h => hwritten ?_) Bool.noConfusion
        have hn : signed true v = -(v : Int) := rfl
        rw [inWordRange_iff]
        omega

theorem exists_read_numeral {d : Declarations} {id : Nat} {rest : List Nat}
    (hopened : d.opened = id :: rest) (hid : id < d.scopes.size) (minus digits : String)
    (negative : Bool) (hds : isDigits ds) (hv : digitsValue ds = v) :
    ∃ node d', (Part.ofTree (.numeral minus digits negative ds)).read.run d = .ok node d' ∧
      if inWordRange (signed negative (onGrid v)) then
        node.IsInt (d'.scope id) (signed negative (onGrid v))
      else node.IsFloat false := by
  rw [read_numeral minus digits negative hds hv]
  split_ifs
  · obtain ⟨d', hdeclare, -, -, hscope⟩ :=
      exists_declared hopened hid (·.addInt (signed negative (onGrid v)))
    refine ⟨_, d', ?_, _, rfl, hscope ▸ constant_of_addInt (.refl _)⟩
    rw [EStateM.run_bind, hdeclare]
    rfl
  · obtain ⟨d', hdeclare, -⟩ := exists_declared hopened hid (·.addFloat (nearest v 0))
    refine ⟨.constantFloat (nearest v 0) ((d.scope id).addFloat (nearest v 0)).1, d', ?_,
      nearest v 0, _, rfl, ?_⟩
    · rw [EStateM.run_bind, hdeclare]
      rfl
    · rcases parts_nearest false v with ⟨m, q, hparts, -⟩ | ⟨hparts, -⟩
      · exact .inr ⟨m, q, hparts⟩
      · exact .inl hparts

/-- A run of digits, with or without a minus, is read as the integer that it is rounded
to, or as a positive double.  This is what is written if the integer is on the grid of
the doubles, or too large and without a minus. -/
theorem numeral_read {d : Declarations} {id : Nat} {rest : List Nat}
    (hopened : d.opened = id :: rest) (hid : id < d.scopes.size) (minus digits : String)
    (negative : Bool) (ds : List Char) (hds : isDigits ds) :
    ∃ node d', (Part.ofTree (.numeral minus digits negative ds)).read.run d = .ok node d' ∧
      (if inWordRange (signed negative (onGrid (digitsValue ds))) then
        node.IsInt (d'.scope id) (signed negative (onGrid (digitsValue ds)))
      else node.IsFloat false) ∧
      (node.IsFaithful (d'.scope id) (signed negative (digitsValue ds)) ↔
        if inWordRange (signed negative (digitsValue ds)) then gap (digitsValue ds) ∣ digitsValue ds
        else negative = false) := by
  obtain ⟨node, d', hrun, hnode⟩ := exists_read_numeral hopened hid minus digits negative hds rfl
  exact ⟨node, d', hrun, hnode, isFaithful_iff hnode⟩

/-- `-2147483648` -/
theorem numeral_read_minus :
    isDigits "2147483648".toList ∧ ∃ node d',
      (Part.ofTree (.numeral "-" "DECIMALLITERAL" true "2147483648".toList)).read.run
        { scopes := #[{}], opened := [0] } = .ok node d' ∧
      node.IsFaithful (d'.scope 0) (-2147483648) := by
  have hds : isDigits "2147483648".toList := by decide
  obtain ⟨node, d', hrun, -, hfaithful⟩ := numeral_read (d := { scopes := #[{}], opened := [0] })
    rfl Nat.one_pos "-" "DECIMALLITERAL" true "2147483648".toList hds
  exact ⟨hds, node, d', hrun, hfaithful.2 (by decide)⟩

/-- `9007199254740993` is read as an even number, `-18446744073709551616` as a double
without its minus. -/
theorem numeral_astray :
    (∃ node d',
      (Part.ofTree (.numeral "-" "DECIMALLITERAL" false "9007199254740993".toList)).read.run
        { scopes := #[{}], opened := [0] } = .ok node d' ∧
      node.IsInt (d'.scope 0) 9007199254740992 ∧
      ¬node.IsFaithful (d'.scope 0) 9007199254740993) ∧
    ∃ node d',
      (Part.ofTree (.numeral "-" "DECIMALLITERAL" true "18446744073709551616".toList)).read.run
        { scopes := #[{}], opened := [0] } = .ok node d' ∧
      node.IsFloat false ∧ ¬node.IsFaithful (d'.scope 0) (-18446744073709551616) := by
  constructor
  · obtain ⟨node, d', hrun, hnode⟩ := exists_read_numeral (v := 9007199254740993)
      (d := { scopes := #[{}], opened := [0] }) rfl Nat.one_pos "-" "DECIMALLITERAL" false
      (show isDigits "9007199254740993".toList by decide) (by decide)
    refine ⟨node, d', hrun, ?_, fun h => ?_⟩
    · exact hnode
    · exact absurd ((isFaithful_iff hnode).1 h) (by decide)
  · obtain ⟨node, d', hrun, hnode⟩ := exists_read_numeral (v := 18446744073709551616)
      (d := { scopes := #[{}], opened := [0] }) rfl Nat.one_pos "-" "DECIMALLITERAL" true
      (show isDigits "18446744073709551616".toList by decide) (by decide)
    refine ⟨node, d', hrun, hnode, fun h => ?_⟩
    exact absurd ((isFaithful_iff hnode).1 h) (by decide)

end PageScript
