import GenHeap.Budget
import Mathlib

/-!
Words read as doubles. A word is read as a number that is neither negative nor a NaN, and eight
times such a number is at least that number: where the product is no double, rounding only drops
zero bits of the mantissa or answers infinity.
-/

namespace GenHeap

open Float.Model
open Float.Model.UnpackedFloat

namespace Rounding

/-- What reading the bits of a nonnegative double answers. A mantissa without its leading bit
stands under the least exponent only. -/
inductive Nonneg : UnpackedFloat → Prop where
  | infinity : Nonneg (.infinity .positive)
  | zero : Nonneg (.zero .positive)
  | finite {m : Nat} {e : Int} (hpos : 0 < m) (hlt : m < 2 ^ 53) (hle : -1074 ≤ e)
      (hnormal : 2 ^ 52 ≤ m ∨ e = -1074) : Nonneg (.finite .positive m e hpos)

/-- A number that rounding answers where the exact one is not negative. -/
inductive Unsigned : UnpackedFloat → Prop where
  | zero : Unsigned (.zero .positive)
  | finite {m : Nat} {e : Int} (hpos : 0 < m) : Unsigned (.finite .positive m e hpos)

/-- The bits of a number, read again. -/
def reread (x : UnpackedFloat) : UnpackedFloat :=
  UnpackedFloat.unpack Format.binary64 (UnpackedFloat.pack Format.binary64 x)

variable {m : Nat} {e : Int}

theorem unsigned_roundWithAccuracy {accuracy : Accuracy} :
    Unsigned (roundWithAccuracy Format.binary64 .positive m e accuracy) := by
  unfold roundWithAccuracy
  dsimp only
  split
  · exact .zero
  · exact .finite _

theorem unsigned_ofNat (n : Nat) : Unsigned (UnpackedFloat.ofNat Format.binary64 n) := by
  unfold UnpackedFloat.ofNat UnpackedFloat.ofInt UnpackedFloat.normalize
  split
  next h =>
    rw [Int.compare_eq_lt] at h
    omega
  next => exact .zero
  next => exact unsigned_roundWithAccuracy

/-! ## Bits -/

theorem unpackSign_packComponents {sign : Sign} {exponent : BitVec 11} {mantissa : BitVec 52} :
    @unpackSign Format.binary64
      (packComponents Format.binary64 sign exponent mantissa) = sign.toBitVec := by
  change (sign.toBitVec ++ exponent ++ mantissa).extractLsb' 63 1 = sign.toBitVec
  rw [BitVec.extractLsb'_append_eq_of_le (by decide),
    BitVec.extractLsb'_append_eq_of_le (by decide)]
  exact BitVec.extractLsb'_eq_self

theorem toNat_leading (mantissa : BitVec 52) :
    (1#1 ++ mantissa).toNat = 2 ^ 52 + mantissa.toNat := by
  rw [BitVec.toNat_append, ← Nat.shiftLeft_add_eq_or_of_lt mantissa.isLt]
  simp [Nat.shiftLeft_eq]

theorem unpack_packComponents {exponent : BitVec 11} {mantissa : BitVec 52}
    (he : exponent ≠ -1#11) :
    UnpackedFloat.unpack Format.binary64
        (packComponents Format.binary64 .positive exponent mantissa) =
      if exponent = 0#11 then
        if h : mantissa = 0#52 then .zero .positive
        else .finite .positive mantissa.toNat (-1074)
          (by simpa [BitVec.toNat_pos, BitVec.pos_iff_ne_zero])
      else .finite .positive (2 ^ 52 + mantissa.toNat) (exponent.toNat - 1075) (by omega) := by
  unfold UnpackedFloat.unpack
  simp only [unpackMantissa_packComponents, unpackExponent_packComponents,
    unpackSign_packComponents, if_neg he, toNat_leading]
  split
  next hz =>
    subst hz
    rfl
  next => rfl

theorem nonneg_unpack {exponent : BitVec 11} {mantissa : BitVec 52} (he : exponent ≠ -1#11) :
    Nonneg (UnpackedFloat.unpack Format.binary64
      (packComponents Format.binary64 .positive exponent mantissa)) := by
  have hlt := mantissa.isLt
  rw [unpack_packComponents he]
  split
  next =>
    split
    next => exact .zero
    next h =>
      exact .finite _ (by omega) (by omega) (.inr rfl)
  next hz =>
    have hpos : exponent.toNat ≠ 0 := fun h => hz (BitVec.eq_of_toNat_eq h)
    exact .finite _ (by omega) (by omega) (.inl (by omega))

theorem nonneg_reread {x : UnpackedFloat} (hx : Unsigned x) : Nonneg (reread x) := by
  cases hx with
  | zero => exact .zero
  | @finite m e hpos =>
    unfold reread UnpackedFloat.pack
    dsimp only
    split
    next => exact .infinity
    next hover =>
      split
      next =>
        apply nonneg_unpack
        intro h
        have hnat := congrArg BitVec.toNat h
        rw [BitVec.toNat_ofNat] at hnat
        change _ % 2048 = 2047 at hnat
        change ¬ 2048 ≤ _ at hover
        omega
      next => exact nonneg_unpack (by decide)

/-- A double with its mantissa in place keeps both parts, or is too large for a double. -/
theorem reread_finite (hpos : 0 < m) (hlt : m < 2 ^ 53) (hle : -1074 ≤ e)
    (hnormal : 2 ^ 52 ≤ m ∨ e = -1074) :
    reread (.finite .positive m e hpos) = .infinity .positive ∨
      reread (.finite .positive m e hpos) = .finite .positive m e hpos := by
  unfold reread UnpackedFloat.pack
  dsimp only
  split
  next => exact .inl rfl
  next hover =>
    have hsmall : (e + 1075).toNat + 1 < 2048 := by
      change ¬ 2048 ≤ (e + (1023 : Nat) + (52 : Nat)).toNat + 1 at hover
      omega
    right
    by_cases hm : 2 ^ 52 ≤ m
    · have hlog : m.log2 + 1 = Format.binary64.mantissaBits :=
        congrArg (· + 1) ((Nat.log2_eq_iff hpos.ne').2 ⟨hm, hlt⟩)
      have hexp : (BitVec.ofNat 11 (e + 1075).toNat).toNat = (e + 1075).toNat := by
        rw [BitVec.toNat_ofNat]
        omega
      rw [if_pos hlog]
      change UnpackedFloat.unpack Format.binary64 (packComponents Format.binary64 .positive
        (BitVec.ofNat 11 (e + (1023 : Nat) + (52 : Nat)).toNat) (BitVec.ofNat 52 m)) = _
      have hsum : e + (1023 : Nat) + (52 : Nat) = e + 1075 := by omega
      rw [hsum, unpack_packComponents (fun h => by
        have hnat := congrArg BitVec.toNat h
        rw [hexp] at hnat
        change _ = 2047 at hnat
        omega), if_neg (fun h => by
        have hnat := congrArg BitVec.toNat h
        rw [hexp] at hnat
        change _ = 0 at hnat
        omega)]
      congr 1
      · rw [BitVec.toNat_ofNat]
        omega
      · rw [hexp]
        omega
    · have he : e = -1074 := hnormal.resolve_left hm
      have hlog : ¬ m.log2 + 1 = Format.binary64.mantissaBits := by
        have := (Nat.log2_lt hpos.ne').2 (Nat.lt_of_not_le hm)
        change ¬ m.log2 + 1 = 53
        omega
      have hmantissa : (BitVec.ofNat 52 m).toNat = m := by
        rw [BitVec.toNat_ofNat]
        omega
      rw [if_neg hlog]
      change UnpackedFloat.unpack Format.binary64
        (packComponents Format.binary64 .positive 0#11 (BitVec.ofNat 52 m)) = _
      rw [unpack_packComponents (by decide), if_pos rfl, dif_neg (fun h => by
        have hnat := congrArg BitVec.toNat h
        rw [hmantissa] at hnat
        exact hpos.ne' hnat)]
      congr 1
      exact he.symm

/-! ## Eightfold -/

theorem shift_exact (m : Nat) (k : Nat) :
    (⟨m * 2 ^ k, false, false⟩ : ExtendedMantissa) >>> k = ⟨m, false, false⟩ := by
  induction k generalizing m with
  | zero => simp [HShiftRight.hShiftRight, Nat.repeat]
  | succ k ih =>
    have hhalf : m * 2 ^ (k + 1) = m * 2 * 2 ^ k := by rw [Nat.pow_succ']; ring
    change ExtendedMantissa.shiftRightOne
      ((⟨m * 2 ^ (k + 1), false, false⟩ : ExtendedMantissa) >>> k) = _
    rw [hhalf, ih]
    simp [ExtendedMantissa.shiftRightOne]

theorem log2_mul_two_pow (hpos : 0 < m) (k : Nat) : (m * 2 ^ k).log2 = m.log2 + k := by
  obtain ⟨hlo, hhi⟩ := (Nat.log2_eq_iff hpos.ne').1 rfl
  have hne : m * 2 ^ k ≠ 0 := (Nat.mul_pos hpos (Nat.two_pow_pos k)).ne'
  rw [Nat.log2_eq_iff hne]
  have hlo' := Nat.mul_le_mul_right (2 ^ k) hlo
  have hhi' := Nat.mul_lt_mul_of_pos_right hhi (Nat.two_pow_pos k)
  rw [← Nat.pow_add] at hlo' hhi'
  rw [Nat.add_right_comm]
  exact ⟨hlo', hhi'⟩

/-- Rounding drops zero bits where the rest is a double. -/
theorem roundWithAccuracy_exact (hpos : 0 < m) (k : Nat)
    (htarget : Format.binary64.targetExponent (totalExponent m e) = e) :
    roundWithAccuracy Format.binary64 .positive (m * 2 ^ k) (e - k) .exact =
      .finite .positive m e hpos := by
  have hlog := log2_mul_two_pow hpos k
  have htotal : totalExponent (m * 2 ^ k) (e - k) = totalExponent m e := by
    simp only [totalExponent, hlog]
    omega
  have hfirst : shiftToTargetExponent Format.binary64 (m * 2 ^ k) (e - k) .exact =
      (⟨m, false, false⟩, e) := by
    have hk : (e - (e - k)).toNat = k := by omega
    simp only [shiftToTargetExponent, htotal, htarget, shiftToExponent, hk,
      ExtendedMantissa.ofMantissaAndAccuracy, shift_exact]
    congr 1
    omega
  have hsecond : shiftToTargetExponent Format.binary64 m e .exact = (⟨m, false, false⟩, e) := by
    simp [shiftToTargetExponent, htarget, shiftToExponent, ExtendedMantissa.ofMantissaAndAccuracy,
      HShiftRight.hShiftRight, Nat.repeat]
  unfold roundWithAccuracy
  rw [hfirst]
  change (let final := shiftToTargetExponent Format.binary64 m e .exact
    if h : final.1.mantissa = 0 then UnpackedFloat.zero .positive
    else .finite .positive final.1.mantissa final.2 (Nat.pos_of_ne_zero h)) = _
  rw [hsecond]
  exact dif_neg hpos.ne'

theorem targetExponent_eq (hpos : 0 < m) (hlt : m < 2 ^ 53) (hle : -1074 ≤ e)
    (hnormal : 2 ^ 52 ≤ m ∨ e = -1074) :
    Format.binary64.targetExponent (totalExponent m e) = e := by
  have hlog := (Nat.log2_lt hpos.ne').2 hlt
  have hleading : 2 ^ 52 ≤ m → m.log2 = 52 :=
    fun hm => (Nat.log2_eq_iff hpos.ne').2 ⟨hm, hlt⟩
  simp only [Format.targetExponent, totalExponent, Format.mantissaBits, Format.minExponent]
  omega

/-- Three more powers of two, first of the mantissa while it has room. -/
theorem exists_eightfold (hlt : m < 2 ^ 53) (hnormal : 2 ^ 52 ≤ m ∨ e = -1074) :
    ∃ j : Nat, j ≤ 3 ∧ m * 2 ^ (3 - j) < 2 ^ 53 ∧
      (2 ^ 52 ≤ m * 2 ^ (3 - j) ∨ e + j = -1074) := by
  by_cases h0 : m < 2 ^ 50
  · exact ⟨0, by omega, by omega, .inr (by omega)⟩
  · by_cases h1 : m < 2 ^ 51
    · exact ⟨1, by omega, by omega, .inl (by omega)⟩
    · by_cases h2 : m < 2 ^ 52
      · exact ⟨2, by omega, by omega, .inl (by omega)⟩
      · exact ⟨3, by omega, by omega, .inl (by omega)⟩

theorem le_finite {m' : Nat} {e' : Int} (hpos : 0 < m) (hpos' : 0 < m')
    (hle : e < e' ∨ e = e' ∧ m ≤ m') :
    (UnpackedFloat.finite .positive m e hpos).le (.finite .positive m' e' hpos') = true := by
  change ((compare e e').then (compare m m')).isLE = true
  obtain hlt | ⟨rfl, hm⟩ := hle
  · rw [Int.compare_eq_lt.2 hlt]
    rfl
  · rw [Int.compare_eq_eq.2 rfl]
    exact Nat.isLE_compare.2 hm

theorem le_mul_eight {x : UnpackedFloat} (hx : Nonneg x) :
    x.le (reread (UnpackedFloat.mul Format.binary64 x
      (.finite .positive (2 ^ 52) (-49) (Nat.two_pow_pos 52)))) = true := by
  cases hx with
  | infinity => rfl
  | zero => rfl
  | @finite m e hpos hlt hle hnormal =>
    obtain ⟨j, hj, hlt', hnormal'⟩ := exists_eightfold hlt hnormal
    have hpos' : 0 < m * 2 ^ (3 - j) := Nat.mul_pos hpos (Nat.two_pow_pos _)
    have hround := roundWithAccuracy_exact hpos' (49 + j)
      (targetExponent_eq hpos' hlt' (by omega) hnormal')
    have hmantissa : m * 2 ^ (3 - j) * 2 ^ (49 + j) = m * 2 ^ 52 := by
      rw [Nat.mul_assoc, ← Nat.pow_add]
      congr 2
      omega
    have hexponent : e + j - ((49 + j : Nat) : Int) = e + -49 := by omega
    rw [hmantissa, hexponent] at hround
    change UnpackedFloat.le _ (reread
      (roundWithAccuracy Format.binary64 .positive (m * 2 ^ 52) (e + -49) .exact)) = true
    rw [hround]
    obtain h | h := reread_finite hpos' hlt' (by omega) hnormal' <;> rw [h]
    · rfl
    · apply le_finite
      have hm : m * 2 ^ 0 ≤ m * 2 ^ (3 - j) :=
        Nat.mul_le_mul_left m (Nat.pow_le_pow_right (by omega) (by omega))
      omega

end Rounding

/-- A word is at most eight times itself, also in doubles. -/
theorem Word.toFloat_le_mul_eight (n : Nat) : toFloat n ≤ toFloat n * 8.0 :=
  decide_eq_true (p := (toFloat n).toModel ≤ (toFloat n * 8.0).toModel)
    (Rounding.le_mul_eight (Rounding.nonneg_reread (Rounding.unsigned_ofNat n.toUInt64.toNat)))

end GenHeap
