import PathQuery.Proofs.Decimal.Bits
import PathQuery.Decimal.Reading

/-!
# The nearest float

Reading a decimal divides a whole number by a power of ten, either both as floats or, where they
are too large for that, both as they are. The quotient is the float that the decimal is near to.

* `unpack_ofUInt64`, `unpack_powerOfTen`   whole numbers and powers of ten that are floats;
* `Canonical.nearest_of_near`              what is near a float is read as it.
-/

namespace PathQuery.Decimal
open Float.Model Float.Model.UnpackedFloat

/-! ## whole numbers and powers of ten -/

theorem Canonical.round_exact {m : ℕ} {e : ℤ} (c : Canonical m e) (s : Sign) :
    roundWithAccuracy Format.binary64 s m e .exact = .finite s m e c.pos := by
  have hr : (⟨m, false, false⟩ : ExtendedMantissa).roundedMantissa = m := rfl
  unfold roundWithAccuracy
  rw [c.settled]
  dsimp only
  rw [hr, c.settled]
  exact dif_neg c.pos.ne'

/-- a whole number shifted until its leading digit is that of a mantissa -/
theorem canonical_shiftLeft {m n : ℕ} (h0 : 0 < m) (hn : n + m.log2 = 52) :
    Canonical (m <<< n) (-n) := by
  have h1 : 2 ^ m.log2 * 2 ^ n ≤ m * 2 ^ n := Nat.mul_le_mul_right _ (Nat.log2_self_le h0.ne')
  have h2 : m * 2 ^ n < 2 ^ (m.log2 + 1) * 2 ^ n :=
    Nat.mul_lt_mul_of_pos_right Nat.lt_log2_self (Nat.two_pow_pos n)
  rw [← Nat.pow_add] at h1 h2
  rw [show m.log2 + n = 52 by omega] at h1
  rw [show m.log2 + 1 + n = 53 by omega] at h2
  rw [Nat.shiftLeft_eq]
  exact ⟨by positivity, h2, by omega, by omega, .inl h1⟩

/-- a positive number of at most 53 bits is a float of its own -/
theorem unpack_ofUInt64 {m : ℕ} (h0 : 0 < m) (h : m < 2 * leastMantissa) :
    ∃ (m' : ℕ) (e : ℤ) (h' : 0 < m'), m.toUInt64.toFloat.toModel.unpack = .finite .positive m' e h'
      ∧ (m' : ℚ) * 2 ^ e = m := by
  have hlog : m.log2 < 53 := (Nat.log2_lt h0.ne').mpr h
  obtain ⟨n, hn⟩ : ∃ n, n + m.log2 = 52 := ⟨52 - m.log2, by omega⟩
  have c := canonical_shiftLeft h0 hn
  have hnat : m.toUInt64.toNat = m := by
    show (UInt64.ofNat m).toNat = m
    rw [UInt64.toNat_ofNat', Nat.mod_eq_of_lt]
    norm_num [leastMantissa] at h ⊢
    omega
  have hround : UnpackedFloat.ofUInt64 Format.binary64 m.toUInt64
      = .finite .positive (m <<< n) (-n) c.pos := by
    show UnpackedFloat.normalize Format.binary64 (m.toUInt64.toNat : ℤ) 0 .positive = _
    have hcmp : compare (m : ℤ) 0 = .gt := compare_gt_iff_gt.mpr (by exact_mod_cast h0)
    rw [hnat]
    unfold UnpackedFloat.normalize
    rw [hcmp]
    show UnpackedFloat.round Format.binary64 .positive m 0 = _
    unfold UnpackedFloat.round decreaseExponent
    rw [targetExponent_eq]
    have ht : max ((m.log2 : ℤ) + 0 - 52) (-1074) = -n := by omega
    rw [ht]
    dsimp only
    have hs : (0 - -(n : ℤ)).toNat = n := by omega
    rw [hs, zero_sub]
    exact c.round_exact .positive
  refine ⟨m <<< n, -n, c.pos, ?_, ?_⟩
  · show (Float.Model.pack (UnpackedFloat.ofUInt64 Format.binary64 m.toUInt64)).unpack = _
    rw [hround, c.unpack_pack]
  · rw [Nat.shiftLeft_eq, zpow_neg, zpow_natCast]
    push_cast
    field_simp

/-- the mantissas of the powers of ten that are floats -/
def mantissaOfTen (n : ℕ) : ℕ := 2 ^ 52 * 10 ^ n / 2 ^ (10 ^ n).log2

theorem mantissaOfTen_table : ∀ n < 23, (10 ^ n).log2 < 1000 ∧
    leastMantissa ≤ mantissaOfTen n ∧ mantissaOfTen n < 2 * leastMantissa ∧
    mantissaOfTen n * 2 ^ (10 ^ n).log2 = 2 ^ 52 * 10 ^ n := by decide +kernel

theorem powerOfTen_table : ∀ n (h : n < 23),
    (getElem Float.exactlyRepresentablePowersOfTen n h).toBits.toNat
    = ((10 ^ n).log2 + 1022) * leastMantissa + mantissaOfTen n := by decide +kernel

theorem canonical_powerOfTen (n : ℕ) (h : n < 23) :
    Canonical (mantissaOfTen n) ((10 ^ n).log2 - 52) := by
  obtain ⟨h1, h2, h3, _⟩ := mantissaOfTen_table n h
  exact ⟨lt_of_lt_of_le (by decide) h2, h3, by omega, by omega, .inl h2⟩

theorem unpack_powerOfTen (n : ℕ) (h : n < 23) :
    (getElem Float.exactlyRepresentablePowersOfTen n h).toModel.unpack
      = .finite .positive (mantissaOfTen n) ((10 ^ n).log2 - 52) (canonical_powerOfTen n h).pos := by
  have e : getElem Float.exactlyRepresentablePowersOfTen n h = (canonical_powerOfTen n h).float false := by
    apply toModel_injective
    refine (powerOfTen_table n h).trans (.trans ?_ ((canonical_powerOfTen n h).toNat_pack _).symm)
    have : (((10 ^ n).log2 : ℤ) - 52 + 1074).toNat = (10 ^ n).log2 + 1022 := by omega
    rw [this]
    show _ = 0 * 2 ^ 63 + _ + _
    omega
  rw [e]
  exact (canonical_powerOfTen n h).unpack_pack _

theorem mantissaOfTen_cast (n : ℕ) (h : n < 23) :
    (mantissaOfTen n : ℚ) * 2 ^ (((10 ^ n).log2 : ℤ) - 52) = 10 ^ n := by
  have hm : (mantissaOfTen n : ℚ) * 2 ^ (10 ^ n).log2 = 2 ^ 52 * 10 ^ n := by
    exact_mod_cast (mantissaOfTen_table n h).2.2.2
  rw [zpow_sub₀ two_ne_zero, zpow_natCast, mul_div_assoc', hm]
  norm_num

/-! ## decimals -/

theorem toModel_div (x y : Float) :
    x / y = .ofModel (.pack (UnpackedFloat.div Format.binary64 x.toModel.unpack y.toModel.unpack)) :=
  rfl

/-- a decimal with digits behind the point is read as the float that it is near to -/
theorem Canonical.ofScientific_of_near {m : ℕ} {e : ℤ} (c : Canonical m e) {k n : ℕ} (hk : 0 < k)
    (hn : 0 < n) (hbound : (n : ℤ) ≤ 2 ^ 11 + k.log2) (h : Near m e ((k : ℚ) / 10 ^ n)) :
    Float.ofScientific k true n = c.float false := by
  unfold Float.ofScientific
  split
  · rename_i hfast
    obtain ⟨m₁, e₁, h₁, hu, hv⟩ := unpack_ofUInt64 hk hfast.1
    have hn' : n < 23 := by omega
    have hdiv := c.div_of_near h₁ (canonical_powerOfTen n hn').pos
      (by rw [hv, mantissaOfTen_cast n hn']; exact h)
    show k.toUInt64.toFloat / (getElem Float.exactlyRepresentablePowersOfTen n hn') = _
    rw [toModel_div, hu, unpack_powerOfTen n hn', hdiv]
    rfl
  · rename_i hslow
    have hneg : ((if true = true then Int.negOfNat n else Int.ofNat n) : ℤ) = -n := by
      rw [if_pos rfl, Int.negOfNat_eq]
      rfl
    have hdiv : UnpackedFloat.ofScientific Format.binary64 k (-n) = .finite .positive m e c.pos := by
      unfold UnpackedFloat.ofScientific
      have h1 : ¬ -(n : ℤ) > 2 ^ Format.binary64.exponentBits := by norm_num
      have h2 : ¬ -(n : ℤ) < -(2 ^ Format.binary64.exponentBits + (k.log2 : ℤ)) := by
        norm_num at hbound ⊢
        omega
      rw [dif_neg hk.ne', if_neg h1, if_neg h2, if_neg (by omega)]
      exact c.div_of_near _ _ (by simpa using h)
    dsimp only
    rw [hneg]
    show Float.ofModel (.pack (UnpackedFloat.ofScientific Format.binary64 k (-n))) = _
    rw [hdiv]
    rfl

theorem Canonical.places_le {m : ℕ} {e : ℤ} (c : Canonical m e) {k n : ℕ}
    (h : Near m e ((k : ℚ) / 10 ^ n)) : n ≤ 400 + (k.log2 / 3 + 1) := by
  by_contra hn
  have hlo := h.lower
  have hr := reach_le m e
  have hm : (1 : ℚ) ≤ m := by exact_mod_cast c.pos
  have hpe : (2 : ℚ) ^ (-1076 : ℤ) ≤ 2 ^ (e - 2) :=
    zpow_le_zpow_right₀ one_le_two (by have := c.least; omega)
  have hq : (2 : ℚ) ^ (-1076 : ℤ) ≤ k / 10 ^ n := by
    refine hpe.trans (le_trans ?_ hlo)
    have := two_zpow_pos (e - 2)
    nlinarith
  have hk' : (k : ℚ) ≤ 10 ^ (k.log2 / 3 + 2) := by
    have h1 : k < 2 ^ (k.log2 + 1) := Nat.lt_log2_self
    have h2 : 2 ^ (k.log2 + 1) ≤ 10 ^ (k.log2 / 3 + 2) := two_pow_le_ten_pow (by omega)
    exact_mod_cast h1.le.trans h2
  have hsmall : (k : ℚ) / 10 ^ n ≤ 1 / 10 ^ 400 := by
    rw [div_le_div_iff₀ (by positivity) (by positivity), one_mul]
    calc (k : ℚ) * 10 ^ 400 ≤ 10 ^ (k.log2 / 3 + 2) * 10 ^ 400 :=
          mul_le_mul_of_nonneg_right hk' (by positivity)
      _ = 10 ^ (k.log2 / 3 + 2 + 400) := (pow_add _ _ _).symm
      _ ≤ 10 ^ n := pow_le_pow_right₀ (by norm_num) (by omega)
  have hle : (2 : ℚ) ^ (-1076 : ℤ) ≤ 1 / 10 ^ 400 := hq.trans hsmall
  rw [zpow_neg, inv_eq_one_div, one_div_le_one_div (by positivity) (by positivity)] at hle
  have hlt : (2 : ℕ) ^ 1076 < 10 ^ 400 := by decide +kernel
  have hlt' : (2 : ℚ) ^ (1076 : ℤ) < 10 ^ 400 := by exact_mod_cast hlt
  exact absurd hle (not_le.mpr hlt')

/-- **A decimal with digits behind the point is read as the float that it is near to.** -/
theorem Canonical.nearest_of_near {m : ℕ} {e : ℤ} (c : Canonical m e) {k n : ℕ} (hk : 0 < k)
    (hn : 0 < n) (h : Near m e ((k : ℚ) / 10 ^ n)) : nearest k (-n) = c.float false := by
  have hplaces := c.places_le h
  unfold nearest
  rw [if_neg hk.ne', if_neg (by omega), if_neg (by omega), Int.natAbs_neg, Int.natAbs_natCast,
    decide_eq_true (by omega)]
  exact c.ofScientific_of_near hk hn (by norm_num; omega) h

end PathQuery.Decimal
