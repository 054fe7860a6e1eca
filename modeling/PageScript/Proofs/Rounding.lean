/-
The double nearest to a natural number.

A natural number of more than 53 binary digits is rounded to a multiple of a power of two
(`Decimal.onGrid`).  Both ways of `Decimal.nearest` are the rounding of an exact product
(`roundWithAccuracy_eq`), which keeps what is cut off in two bits (`Shifted`), and what is
packed into 64 bits comes out as it went in (`unpack_pack`).  `Decimal.parts_nearest` says
what the double is, with either sign.
-/
import Mathlib
import PageScript.Decimal.Fixed
import PageScript.Node.OfTree

namespace PageScript

open Float.Model UnpackedFloat Format

variable {v k M m : Nat} {e : Int}

namespace Decimal

/-- How far apart the doubles near a natural number are, if they are whole. -/
def gap (v : Nat) : Nat := 2 ^ (v.log2 - 52)

/-- The natural number that the double nearest to a natural number stands for. -/
def onGrid (v : Nat) : Nat := roundHalfEven v (gap v) * gap v

theorem roundHalfEven_one (n : Nat) : roundHalfEven n 1 = n := by
  simp [roundHalfEven, Nat.mod_one]

theorem le_roundHalfEven (n d : Nat) : n / d ≤ roundHalfEven n d := by
  unfold roundHalfEven
  dsimp only
  split_ifs <;> omega

theorem roundHalfEven_le (n d : Nat) : roundHalfEven n d ≤ n / d + 1 := by
  unfold roundHalfEven
  dsimp only
  split_ifs <;> omega

theorem roundHalfEven_mul (n d : Nat) {c : Nat} (hc : 0 < c) :
    roundHalfEven (n * c) (d * c) = roundHalfEven n d := by
  have hlt : ∀ a b, a * c < b * c ↔ a < b := fun a b => Nat.mul_lt_mul_right hc
  unfold roundHalfEven
  dsimp only
  rw [Nat.mul_div_mul_right _ _ hc, Nat.mul_mod_mul_right, ← Nat.mul_assoc]
  simp only [hlt]

theorem roundHalfEven_eq_div {n d : Nat} (hd : 0 < d) (h : d ∣ n) : roundHalfEven n d = n / d := by
  unfold roundHalfEven
  dsimp only
  rw [Nat.mod_eq_zero_of_dvd h, if_pos (by omega)]

theorem onGrid_eq_iff (v : Nat) : onGrid v = v ↔ gap v ∣ v := by
  constructor
  · intro h
    exact ⟨roundHalfEven v (gap v), by rw [Nat.mul_comm]; exact h.symm⟩
  · intro h
    have hgap : 0 < gap v := Nat.two_pow_pos _
    rw [onGrid, roundHalfEven_eq_div hgap h, Nat.div_mul_cancel h]

end Decimal

namespace Double

open Decimal

/-! ### Rounding a mantissa -/

/-- What `k` shifts leave of a mantissa: the bits that are cut off are summed up in two. -/
structure Shifted (M k : Nat) (em : ExtendedMantissa) : Prop where
  mantissa : em.mantissa = M / 2 ^ k
  round : em.roundBit ↔ 2 ^ k ≤ 2 * (M % 2 ^ k)
  sticky : em.stickyBit ↔ M % 2 ^ k ≠ 0 ∧ 2 * (M % 2 ^ k) ≠ 2 ^ k

theorem shifted_repeat (M k : Nat) : Shifted M k (ExtendedMantissa.mk M false false >>> k) := by
  show Shifted M k (k.repeat ExtendedMantissa.shiftRightOne ⟨M, false, false⟩)
  induction k with
  | zero =>
    rw [Nat.repeat]
    exact ⟨by simp, by simp [Nat.mod_one], by simp [Nat.mod_one]⟩
  | succ k ih =>
    obtain ⟨hm, hround, hsticky⟩ := ih
    rw [Nat.repeat]
    generalize k.repeat ExtendedMantissa.shiftRightOne ⟨M, false, false⟩ = em at *
    have hmod : M % 2 ^ (k + 1) = M % 2 ^ k + 2 ^ k * (M / 2 ^ k % 2) := by
      rw [Nat.pow_succ, Nat.mod_mul]
    have hlt : M % 2 ^ k < 2 ^ k := Nat.mod_lt _ (Nat.two_pow_pos k)
    have hpow : 2 ^ (k + 1) = 2 * 2 ^ k := by rw [Nat.pow_succ, Nat.mul_comm]
    have hbit : M / 2 ^ k % 2 = 0 ∨ M / 2 ^ k % 2 = 1 := by omega
    refine ⟨?_, ?_, ?_⟩
    · show em.mantissa / 2 = _
      rw [hm, Nat.div_div_eq_div_mul, Nat.pow_succ]
    · show (em.mantissa % 2 != 0) = true ↔ _
      rw [hm, bne_iff_ne, hmod, hpow]
      rcases hbit with hbit | hbit <;> rw [hbit] <;> omega
    · show (em.roundBit || em.stickyBit) = true ↔ _
      rw [Bool.or_eq_true, hround, hsticky, hmod, hpow]
      rcases hbit with hbit | hbit <;> rw [hbit] <;> omega

theorem Shifted.rounded {em : ExtendedMantissa} (h : Shifted M k em) :
    em.roundedMantissa = roundHalfEven M (2 ^ k) := by
  obtain ⟨m, round, sticky⟩ := em
  obtain ⟨rfl, hround, hsticky⟩ := h
  dsimp only at hround hsticky
  unfold roundHalfEven
  dsimp only
  cases round <;> cases sticky
  all_goals
    simp only [Bool.false_eq_true, false_iff, true_iff] at hround hsticky
    simp only [ExtendedMantissa.roundedMantissa, ExtendedMantissa.accuracy,
      Accuracy.roundToNearestEven]
    have := Nat.two_pow_pos k
    split_ifs <;> omega

theorem log2_mul_two_pow (hv : v ≠ 0) (k : Nat) : (v * 2 ^ k).log2 = v.log2 + k := by
  have hpos := Nat.two_pow_pos k
  rw [Nat.log2_eq_iff (Nat.mul_ne_zero hv hpos.ne'), Nat.pow_add, Nat.add_right_comm, Nat.pow_add]
  exact ⟨Nat.mul_le_mul_right _ (Nat.log2_self_le hv),
    Nat.mul_lt_mul_of_pos_right Nat.lt_log2_self hpos⟩

theorem roundHalfEven_bounds (h : M.log2 = 52 + k) :
    2 ^ 52 ≤ roundHalfEven M (2 ^ k) ∧ roundHalfEven M (2 ^ k) ≤ 2 ^ 53 := by
  have hM : M ≠ 0 := by
    rintro rfl
    rw [Nat.log2_zero] at h
    omega
  obtain ⟨hle, hlt⟩ := (Nat.log2_eq_iff hM).1 h
  have hdiv : 2 ^ 52 ≤ M / 2 ^ k := by
    rw [Nat.le_div_iff_mul_le (Nat.two_pow_pos k), ← Nat.pow_add]
    exact hle
  have hdiv' : M / 2 ^ k < 2 ^ 53 := by
    rw [Nat.div_lt_iff_lt_mul (Nat.two_pow_pos k), ← Nat.pow_add]
    rwa [Nat.add_right_comm] at hlt
  exact ⟨hdiv.trans (le_roundHalfEven _ _), (roundHalfEven_le _ _).trans hdiv'⟩

theorem targetExponent_eq (t : Int) : binary64.targetExponent t = max (t - 53) (-1074) := rfl

theorem shiftToTargetExponent_eq (h : M.log2 = 52 + k)
    (he : -1074 ≤ e + k) : shiftToTargetExponent binary64 M e .exact
      = (ExtendedMantissa.mk M false false >>> k, e + k) := by
  have htarget : (binary64.targetExponent (totalExponent M e) - e).toNat = k := by
    rw [targetExponent_eq, totalExponent]
    omega
  unfold shiftToTargetExponent shiftToExponent
  dsimp only
  rw [htarget]
  rfl

theorem roundWithAccuracy_eq (h : M.log2 = 52 + k) (he : -1074 ≤ e + k)
    (s : Sign) : ∃ m e' hm, roundWithAccuracy binary64 s M e .exact = .finite s m e' hm ∧
      m.log2 = 52 ∧
      (m = roundHalfEven M (2 ^ k) ∧ e' = e + k ∨
        2 * m = roundHalfEven M (2 ^ k) ∧ e' = e + k + 1) := by
  have hround : roundWithAccuracy binary64 s M e .exact
      = let second := shiftToTargetExponent binary64 (roundHalfEven M (2 ^ k)) (e + k) .exact
        if h : second.1.mantissa = 0 then .zero s
        else .finite s second.1.mantissa second.2 (Nat.pos_of_ne_zero h) := by
    rw [roundWithAccuracy, shiftToTargetExponent_eq h he]
    dsimp only
    rw [(shifted_repeat M k).rounded]
  obtain ⟨hle, hge⟩ := roundHalfEven_bounds h
  generalize roundHalfEven M (2 ^ k) = R at *
  have hR : R ≠ 0 := by omega
  rcases hge.lt_or_eq with hlt | rfl
  · have hlog : R.log2 = 52 := (Nat.log2_eq_iff hR).2 ⟨hle, hlt⟩
    refine ⟨R, e + k, Nat.pos_of_ne_zero hR, ?_, hlog, .inl ⟨rfl, rfl⟩⟩
    rw [hround, shiftToTargetExponent_eq (k := 0) hlog (by omega), Int.natCast_zero, Int.add_zero]
    exact dif_neg hR
  · rw [hround, shiftToTargetExponent_eq (k := 1) Nat.log2_two_pow (by omega)]
    exact ⟨2 ^ 52, e + k + 1, by decide, rfl, Nat.log2_two_pow, .inr ⟨rfl, rfl⟩⟩

theorem roundWithAccuracy_exact (hm : 0 < m) (hlog : m.log2 = 52) (k : Nat)
    (he : -1074 ≤ e + k) (s : Sign) :
    roundWithAccuracy binary64 s (m * 2 ^ k) e .exact = .finite s m (e + k) hm := by
  have hdigits : (m * 2 ^ k).log2 = 52 + k := by rw [log2_mul_two_pow hm.ne', hlog]
  have hround : roundHalfEven (m * 2 ^ k) (2 ^ k) = m := by
    rw [roundHalfEven_eq_div (Nat.two_pow_pos k) (Nat.dvd_mul_left _ _),
      Nat.mul_div_cancel _ (Nat.two_pow_pos k)]
  obtain ⟨m', e', hm', heq, hlog', ⟨rfl, rfl⟩ | ⟨htwice, -⟩⟩ := roundWithAccuracy_eq hdigits he s
  · rw [heq]
    congr
  · -- A mantissa with 53 digits is not twice another.
    rw [← hround, ← htwice, Nat.log2_two_mul hm'.ne'] at hlog
    omega

/-! ### Packing -/

theorem unpackSign_packComponents {spec : Format} {sign exponent mantissa} :
    unpackSign (packComponents spec sign exponent mantissa) = sign.toBitVec := by
  ext i hi
  obtain rfl : i = 0 := by omega
  simp [unpackSign, packComponents, BitVec.getLsbD_append, BitVec.getElem_append]

theorem ofBitVec_toBitVec (s : Sign) : Sign.ofBitVec s.toBitVec = s := by cases s <;> rfl

theorem unpack_packedInfinity (s : Sign) :
    unpack binary64 (packedInfinity binary64 s) = .infinity s := by
  cases s <;> rfl

theorem append_one_toNat (hlog : m.log2 = 52) : (1#1 ++ BitVec.ofNat 52 m).toNat = m := by
  have hm : m ≠ 0 := by
    rintro rfl
    rw [Nat.log2_zero] at hlog
    omega
  obtain ⟨hle, hlt⟩ := (Nat.log2_eq_iff hm).1 hlog
  rw [BitVec.toNat_append, ← Nat.shiftLeft_add_eq_or_of_lt (BitVec.isLt _),
    BitVec.toNat_ofNat m 52]
  show 1 <<< 52 + _ = _
  omega

theorem unpack_pack {s : Sign} {hm : 0 < m} (hlog : m.log2 = 52) (hlow : -1074 ≤ e) :
    unpack binary64 (pack binary64 (.finite s m e hm))
      = if e ≤ 971 then .finite s m e hm else .infinity s := by
  have hpack : pack binary64 (.finite s m e hm)
      = if 2048 ≤ (e + 1075).toNat + 1 then packedInfinity binary64 s
        else packComponents binary64 s (BitVec.ofNat _ (e + 1075).toNat)
          (BitVec.ofNat _ m) := by
    unfold UnpackedFloat.pack
    dsimp only
    rw [if_pos (show m.log2 + 1 = binary64.mantissaBits by rw [hlog]; rfl), Int.add_assoc]
    rfl
  rw [hpack]
  by_cases he : e ≤ 971
  · rw [if_neg (by omega), if_pos he]
    have htoNat : (BitVec.ofNat 11 (e + 1075).toNat).toNat = (e + 1075).toNat := by
      rw [BitVec.toNat_ofNat, Nat.mod_eq_of_lt (by omega)]
    have hne : ∀ b : BitVec 11, b.toNat ≠ (e + 1075).toNat →
        BitVec.ofNat 11 (e + 1075).toNat ≠ b := by
      rintro b hb rfl
      exact hb htoNat
    unfold UnpackedFloat.unpack
    simp only [unpackExponent_packComponents, unpackMantissa_packComponents,
      unpackSign_packComponents, ofBitVec_toBitVec]
    rw [if_neg (hne (-1#11) (show 2047 ≠ _ by omega)), if_neg (hne 0#11 (show 0 ≠ _ by omega))]
    simp only [append_one_toNat hlog, htoNat]
    congr 1
    show _ - (1075 : Int) = _
    omega
  · rw [if_pos (by omega), if_neg he, unpack_packedInfinity]

/-! ### Doubles that are whole -/

def isMinus : Sign → Bool
  | .positive => false
  | .negative => true

def Parts.ofUnpacked : UnpackedFloat → Parts
  | .finite s m e _ => .finite (isMinus s) m e
  | .zero s => .finite (isMinus s) 0 (-1074)
  | .infinity s => .infinite (isMinus s)
  | .notANumber => .nan

section Bits

variable (b : BitVec 64)

theorem toNat_unpackExponent : (@unpackExponent binary64 b).toNat = b.toNat / 2 ^ 52 % 2048 := by
  rw [unpackExponent, BitVec.toNat_cast, BitVec.extractLsb_toNat, Nat.shiftRight_eq_div_pow]
  rfl

theorem toNat_unpackMantissa : (@unpackMantissa binary64 b).toNat = b.toNat % 2 ^ 52 := by
  rw [unpackMantissa, BitVec.toNat_cast, BitVec.extractLsb_toNat, Nat.shiftRight_zero]
  rfl

theorem isMinus_unpackSign :
    isMinus (Sign.ofBitVec (@unpackSign binary64 b)) = b.toNat.testBit 63 := by
  have hsign : (@unpackSign binary64 b).toNat = b.toNat >>> 63 % 2 := by
    rw [unpackSign, BitVec.toNat_cast, BitVec.extractLsb_toNat]
    rfl
  rw [Nat.testBit_eq_decide_div_mod_eq, ← Nat.shiftRight_eq_div_pow, ← hsign, Sign.ofBitVec]
  generalize @unpackSign binary64 b = c
  revert c
  decide

end Bits

theorem parts_eq (x : Float) : parts x = .ofUnpacked x.toModel.unpack := by
  have hexponent := toNat_unpackExponent x.toBits.toBitVec
  have hmantissa := toNat_unpackMantissa x.toBits.toBitVec
  have hsign := isMinus_unpackSign x.toBits.toBitVec
  show parts x = .ofUnpacked (unpack binary64 x.toBits.toBitVec)
  unfold parts UnpackedFloat.unpack
  dsimp only
  rw [show x.toBits.toNat = x.toBits.toBitVec.toNat from rfl, ← hsign, Nat.pow_eq]
  generalize x.toBits.toBitVec = b at *
  rw [← hexponent, ← hmantissa]
  generalize @unpackExponent binary64 b = e at *
  have hones : e = -1#11 ↔ e.toNat = 2047 := BitVec.toNat_inj.symm
  have hzeros : e = 0#11 ↔ e.toNat = 0 := BitVec.toNat_inj.symm
  have hf : @unpackMantissa binary64 b = 0#52 ↔
      (@unpackMantissa binary64 b).toNat = 0 := BitVec.toNat_inj.symm
  by_cases hinfinite : e = -1#11
  · rw [if_pos hinfinite, if_pos (hones.1 hinfinite)]
    by_cases hzero : @unpackMantissa binary64 b = 0#52
    · rw [if_pos hzero, if_pos (hf.1 hzero)]
      rfl
    · rw [if_neg hzero, if_neg (hf.not.1 hzero)]
      rfl
  rw [if_neg hinfinite, if_neg (hones.not.1 hinfinite)]
  by_cases hsubnormal : e = 0#11
  · rw [if_pos hsubnormal, if_pos (hzeros.1 hsubnormal)]
    by_cases hzero : @unpackMantissa binary64 b = 0#52
    · rw [dif_pos hzero, hf.1 hzero]
      rfl
    · rw [dif_neg hzero, hsubnormal]
      rfl
  rw [if_neg hsubnormal, if_neg (hzeros.not.1 hsubnormal)]
  have happend : (1#1 ++ @unpackMantissa binary64 b).toNat
      = (@unpackMantissa binary64 b).toNat + 2 ^ 52 := by
    rw [BitVec.toNat_append, ← Nat.shiftLeft_add_eq_or_of_lt (BitVec.isLt _)]
    exact Nat.add_comm _ _
  show _ = Parts.finite _ _ _
  rw [happend]
  rfl

/-- A number that is not packed stands for a natural number, or for more than any double. -/
inductive Stands (s : Sign) (n : Nat) : UnpackedFloat → Prop
  | finite {m e hm} : m.log2 = 52 → -1074 ≤ e → e ≤ 971 →
    m * 2 ^ e.toNat = n * 2 ^ (-e).toNat → Stands s n (.finite s m e hm)
  | infinite : 1024 ≤ n.log2 → Stands s n (.infinity s)

namespace Stands

variable {s : Sign} {n : Nat} {u : UnpackedFloat}

theorem unpack_pack (h : Stands s n u) : (Float.Model.pack u).unpack = u := by
  cases h with
  | finite hlog hlow hhigh => exact (Double.unpack_pack hlog hlow).trans (if_pos hhigh)
  | infinite => exact unpack_packedInfinity s

theorem neg (h : Stands s n u) : Stands (-s) n u.neg := by
  cases h with
  | finite hlog hlow hhigh hvalue => exact .finite hlog hlow hhigh hvalue
  | infinite hn => exact .infinite hn

theorem pack {hm : 0 < m} (hlog : m.log2 = 52) (hlow : -1074 ≤ e)
    (hvalue : m * 2 ^ e.toNat = n * 2 ^ (-e).toNat) :
    Stands s n (Float.Model.pack (.finite s m e hm)).unpack := by
  show Stands s n (UnpackedFloat.unpack _ (UnpackedFloat.pack _ _))
  rw [Double.unpack_pack hlog hlow]
  split_ifs with hhigh
  · exact .finite hlog hlow hhigh hvalue
  · refine .infinite ?_
    rw [show (-e).toNat = 0 by omega, Nat.pow_zero, Nat.mul_one] at hvalue
    rw [← hvalue, log2_mul_two_pow hm.ne', hlog]
    omega

end Stands

end Double

namespace Decimal

open Double

theorem ofNat_of_lt (hv : v ≠ 0) (hlt : v < 2 ^ 53) : ∃ hm,
    (v * 2 ^ (52 - v.log2)).log2 = 52 ∧ ofNat binary64 v
      = .finite .positive (v * 2 ^ (52 - v.log2)) (-(52 - v.log2 : Nat)) hm := by
  have hlog : v.log2 ≤ 52 := Nat.le_of_lt_succ ((Nat.log2_lt hv).2 hlt)
  have hfull : (v * 2 ^ (52 - v.log2)).log2 = 52 := by
    rw [log2_mul_two_pow hv]
    omega
  have hm : 0 < v * 2 ^ (52 - v.log2) := Nat.mul_pos (Nat.pos_of_ne_zero hv) (Nat.two_pow_pos _)
  have htarget : binary64.targetExponent (totalExponent v 0) = -(52 - v.log2 : Nat) := by
    rw [targetExponent_eq, totalExponent]
    omega
  refine ⟨hm, hfull, ?_⟩
  show normalize binary64 v 0 .positive = _
  have hround := roundWithAccuracy_exact hm hfull 0 (e := -(52 - v.log2 : Nat)) (by omega) .positive
  rw [Nat.pow_zero, Nat.mul_one] at hround
  unfold UnpackedFloat.normalize
  rw [show compare (v : Int) 0 = .gt by rw [Int.compare_eq_gt]; omega]
  dsimp only
  unfold UnpackedFloat.round decreaseExponent
  dsimp only
  rw [Int.toNat_natCast, htarget, Int.zero_sub, Int.neg_neg, Int.toNat_natCast, Int.zero_sub,
    Nat.shiftLeft_eq]
  exact hround.trans (by rw [Int.natCast_zero, Int.add_zero])

theorem onGrid_of_lt (hlt : v < 2 ^ 53) : onGrid v = v := by
  have hlog : v.log2 ≤ 52 := by
    by_cases hv : v = 0
    · simp [hv]
    · exact Nat.le_of_lt_succ ((Nat.log2_lt hv).2 hlt)
  rw [onGrid, gap, Nat.sub_eq_zero_of_le hlog, Nat.pow_zero, roundHalfEven_one, Nat.mul_one]

theorem log2_le_log2_onGrid (hv : v ≠ 0) : v.log2 ≤ (onGrid v).log2 := by
  by_cases hlt : v < 2 ^ 53
  · rw [onGrid_of_lt hlt]
  · have hlog : 52 ≤ v.log2 := (Nat.le_log2 hv).2 (by omega)
    obtain ⟨k, hk⟩ := Nat.exists_eq_add_of_le hlog
    have hle : 2 ^ 52 ≤ roundHalfEven v (2 ^ k) := (roundHalfEven_bounds hk).1
    have hpos : roundHalfEven v (2 ^ k) ≠ 0 := by omega
    rw [onGrid, gap, hk, Nat.add_sub_cancel_left, log2_mul_two_pow hpos]
    exact Nat.add_le_add_right ((Nat.le_log2 hpos).2 hle) k

theorem mul_finite {s₁ s₂ : Sign} {m₁ m₂ : Nat} {e₁ e₂ : Int} {h₁ : 0 < m₁} {h₂ : 0 < m₂} :
    mul binary64 (.finite s₁ m₁ e₁ h₁) (.finite s₂ m₂ e₂ h₂)
      = roundWithAccuracy binary64 (s₁ * s₂) (m₁ * m₂) (e₁ + e₂) .exact := rfl

theorem stands_of_lt (hv : v ≠ 0) (hlt : v < 2 ^ 53) :
    Stands .positive v (Float.ofScientific v false 0).toModel.unpack := by
  have hfast : Float.ofScientific v false 0
      = v.toUInt64.toFloat * Float.ofBits 0x3FF0000000000000 := by
    unfold Float.ofScientific
    rw [dif_pos ⟨hlt, by decide⟩]
    rfl
  have hword : v.toUInt64.toNat = v := by
    show v % 2 ^ 64 = v
    omega
  have hone : (Float.ofBits 0x3FF0000000000000).toModel.unpack
      = .finite .positive (2 ^ 52) (-52) (by decide) := rfl
  obtain ⟨hm, hlog, hofNat⟩ := ofNat_of_lt hv hlt
  have hstands : Stands .positive v
      (.finite .positive (v * 2 ^ (52 - v.log2)) (-(52 - v.log2 : Nat)) hm) :=
    .finite hlog (by omega) (by omega) (by simp)
  have hx : v.toUInt64.toFloat.toModel.unpack
      = .finite .positive (v * 2 ^ (52 - v.log2)) (-(52 - v.log2 : Nat)) hm := by
    show (Float.Model.pack (ofNat binary64 v.toUInt64.toNat)).unpack = _
    rw [hword, hofNat, hstands.unpack_pack]
  have hmul : mul binary64 v.toUInt64.toFloat.toModel.unpack
      (Float.ofBits 0x3FF0000000000000).toModel.unpack
        = .finite .positive (v * 2 ^ (52 - v.log2)) (-(52 - v.log2 : Nat)) hm := by
    rw [hx, hone, mul_finite, roundWithAccuracy_exact hm hlog 52 (by omega)]
    congr 1
    omega
  rw [hfast]
  show Stands _ _ (Float.Model.pack (mul binary64
    v.toUInt64.toFloat.toModel.unpack (Float.ofBits 0x3FF0000000000000).toModel.unpack)).unpack
  rw [hmul, hstands.unpack_pack]
  exact hstands

theorem stands_of_le (hv : v ≠ 0) (hle : 2 ^ 53 ≤ v) :
    Stands .positive (onGrid v) (Float.ofScientific v false 0).toModel.unpack := by
  have hslow : (Float.ofScientific v false 0).toModel
      = .pack (ofScientific binary64 v 0) := by
    unfold Float.ofScientific
    rw [dif_neg (fun h => by omega)]
    rfl
  have hround : ofScientific binary64 v 0
      = roundWithAccuracy binary64 .positive (v * 2 ^ 53) (-53) .exact := by
    unfold UnpackedFloat.ofScientific
    have hbits : (2 : Int) ^ binary64.exponentBits = 2048 := rfl
    rw [dif_neg hv, hbits, if_neg (by decide), if_neg (by omega),
      if_pos (Int.le_refl 0), mul_finite, Int.toNat_zero, Nat.pow_zero, Nat.mul_one,
      Nat.shiftLeft_eq]
    rfl
  have hlog : 53 ≤ v.log2 := (Nat.le_log2 hv).2 hle
  obtain ⟨j, hj⟩ := Nat.exists_eq_add_of_le' (Nat.le_of_succ_le hlog)
  have hgap : 2 ^ (v.log2 + 1) = gap v * 2 ^ 53 := by
    rw [gap, hj, Nat.add_sub_cancel, ← Nat.pow_add]
  have hdigits : (v * 2 ^ 53).log2 = 52 + (v.log2 + 1) := by
    rw [log2_mul_two_pow hv]
    omega
  obtain ⟨m, e, hm, heq, hmlog, hcases⟩ :=
    roundWithAccuracy_eq (e := -53) hdigits (by omega) .positive
  rw [hgap, roundHalfEven_mul _ _ (Nat.two_pow_pos 53)] at hcases
  rw [hslow, hround, heq]
  refine .pack hmlog (by omega) ?_
  have hgrid : onGrid v = roundHalfEven v (gap v) * 2 ^ j := by
    rw [onGrid, show gap v = 2 ^ j by rw [gap, hj, Nat.add_sub_cancel]]
  rcases hcases with ⟨rfl, rfl⟩ | ⟨hm2, rfl⟩
  · rw [show (-53 + ((v.log2 + 1 : Nat) : Int)).toNat = j by omega,
      show (-(-53 + ((v.log2 + 1 : Nat) : Int))).toNat = 0 by omega, Nat.pow_zero, Nat.mul_one,
      hgrid]
  · rw [show (-53 + ((v.log2 + 1 : Nat) : Int) + 1).toNat = j + 1 by omega,
      show (-(-53 + ((v.log2 + 1 : Nat) : Int) + 1)).toNat = 0 by omega, Nat.pow_zero, Nat.mul_one,
      hgrid, ← hm2, Nat.pow_succ]
    ring

theorem three_mul_le_log2 (hv : v ≠ 0) (hk : 0 < k)
    (h : k < (Nat.toDigits 10 v).length) : 3 * k ≤ v.log2 := by
  have hle : 10 ^ k ≤ v := by
    rw [← Nat.not_lt, ← Nat.length_toDigits_le_iff (by decide) hk, Nat.not_le]
    exact h
  rw [Nat.le_log2 hv, Nat.pow_mul]
  exact (Nat.pow_le_pow_left (by decide) k).trans hle

theorem stands_nearest (hv : v ≠ 0) : Stands .positive (onGrid v) (nearest v 0).toModel.unpack := by
  unfold nearest
  dsimp only
  rw [if_neg (by omega)]
  split_ifs with hlong
  · refine .infinite ?_
    calc 1024 ≤ 3 * 400 := by decide
      _ ≤ v.log2 := three_mul_le_log2 hv (by decide) (by omega)
      _ ≤ (onGrid v).log2 := log2_le_log2_onGrid hv
  · show Stands _ _ (Float.ofScientific v false 0).toModel.unpack
    by_cases hlt : v < 2 ^ 53
    · rw [onGrid_of_lt hlt]
      exact stands_of_lt hv hlt
    · exact stands_of_le hv (by omega)

/-- A double with or without its sign changed. -/
def withSign (negative : Bool) (x : Float) : Float := if negative then -x else x

theorem parts_nearest (negative : Bool) (v : Nat) :
    (∃ m q, parts (withSign negative (nearest v 0)) = .finite negative m q ∧
      m * 2 ^ q.toNat = onGrid v * 2 ^ (-q).toNat) ∨
    parts (withSign negative (nearest v 0)) = .infinite negative ∧ 1024 ≤ (onGrid v).log2 := by
  by_cases hv : v = 0
  · subst hv
    refine .inl ⟨0, -1074, ?_, by rw [onGrid_of_lt (by decide), Nat.zero_mul, Nat.zero_mul]⟩
    cases negative <;> rfl
  have hstands : Stands (if negative then .negative else .positive) (onGrid v)
      (withSign negative (nearest v 0)).toModel.unpack := by
    have hpositive := stands_nearest hv
    cases negative with
    | false => exact hpositive
    | true =>
      show Stands .negative _ (Float.Model.pack (nearest v 0).toModel.unpack.neg).unpack
      rw [hpositive.neg.unpack_pack]
      exact hpositive.neg
  have hsign : isMinus (if negative then .negative else .positive) = negative := by
    cases negative <;> rfl
  rw [parts_eq]
  generalize (withSign negative (nearest v 0)).toModel.unpack = u at *
  cases hstands with
  | finite _ _ _ hvalue => exact .inl ⟨_, _, by rw [Parts.ofUnpacked, hsign], hvalue⟩
  | infinite hlarge => exact .inr ⟨by rw [Parts.ofUnpacked, hsign], hlarge⟩

end Decimal

end PageScript
