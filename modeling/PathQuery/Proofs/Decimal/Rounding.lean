import Mathlib
import PathQuery.Decimal.Shortest

/-!
# Rounding

The arithmetic of floats works on mantissas with two bits behind them, a round bit and a sticky
bit, and rounds at the end. Here the numbers are rationals.

* `Holds em x`            the mantissa and the two bits of `em` tell where `x` lies;
* `Canonical m e`         `m · 2 ^ e` is a positive float, written in the one way that floats are;
* `Near m e q`            `q` rounds to `m · 2 ^ e`;
* `Canonical.rounded_of_near`   what holds a number near a float is rounded to that float;
* `Canonical.div_of_near`       the quotient of two floats is the float that it is near to.
-/

namespace PathQuery.Decimal
open Float.Model Float.Model.UnpackedFloat

/-! ## mantissas with two bits behind them -/

/-- the bits behind a mantissa tell where a number lies above it -/
structure Holds (em : ExtendedMantissa) (x : ℚ) : Prop where
  least : (em.mantissa : ℚ) ≤ x
  less : x < em.mantissa + 1
  round : em.roundBit = true ↔ em.mantissa + 1 / 2 ≤ x
  sticky : em.stickyBit = true ↔ x ≠ em.mantissa ∧ x ≠ em.mantissa + 1 / 2

namespace Holds

theorem inexact {em : ExtendedMantissa} {x : ℚ} (h : Holds em x) :
    (em.roundBit || em.stickyBit) = true ↔ x ≠ em.mantissa := by
  rw [Bool.or_eq_true, h.round, h.sticky]
  constructor
  · rintro (h1 | h1) e
    · rw [e] at h1; linarith
    · exact h1.1 e
  · intro hne
    by_cases e : x = em.mantissa + 1 / 2
    · exact .inl e.ge
    · exact .inr ⟨hne, e⟩

theorem half {em : ExtendedMantissa} {x : ℚ} (h : Holds em x) :
    Holds em.shiftRightOne (x / 2) := by
  have hx := h.inexact
  obtain ⟨h1, h2, _, _⟩ := h
  have hm : (em.mantissa : ℚ) = 2 * (em.mantissa / 2 : ℕ) + (em.mantissa % 2 : ℕ) := by
    exact_mod_cast (Nat.div_add_mod em.mantissa 2).symm
  show Holds ⟨em.mantissa / 2, em.mantissa % 2 != 0, em.roundBit || em.stickyBit⟩ (x / 2)
  rcases Nat.mod_two_eq_zero_or_one em.mantissa with e | e
  · rw [e] at hm ⊢
    push_cast at hm
    refine ⟨by linarith, by linarith, ?_, ?_⟩
    · constructor
      · intro h; simp at h
      · intro h; dsimp only at h; linarith
    · rw [hx]
      constructor
      · intro hne
        exact ⟨fun e' => hne (by linarith), fun e' => by dsimp only at e'; linarith⟩
      · intro hne e'
        exact hne.1 (by dsimp only; linarith)
  · rw [e] at hm ⊢
    push_cast at hm
    refine ⟨by linarith, by linarith, ?_, ?_⟩
    · constructor
      · intro _; dsimp only; linarith
      · intro _; rfl
    · rw [hx]
      constructor
      · intro hne
        exact ⟨fun e' => by dsimp only at e'; linarith, fun e' => hne (by dsimp only at e'; linarith)⟩
      · intro hne e'
        exact hne.2 (by dsimp only; linarith)

theorem shift {em : ExtendedMantissa} {x : ℚ} (h : Holds em x) (n : ℕ) :
    Holds (em >>> n) (x / 2 ^ n) := by
  induction n with
  | zero => simpa [HShiftRight.hShiftRight, Nat.repeat] using h
  | succ n ih =>
    have e : x / 2 ^ (n + 1) = x / 2 ^ n / 2 := by rw [pow_succ, div_div]
    rw [e]
    exact ih.half

/-- a number within half a unit of `m`, or halfway from an even `m`, is rounded to it -/
theorem rounded {em : ExtendedMantissa} {x : ℚ} (h : Holds em x) (m : ℕ)
    (lower : (m : ℚ) - 1 / 2 ≤ x) (upper : x ≤ m + 1 / 2)
    (odd : m % 2 = 1 → (m : ℚ) - 1 / 2 < x ∧ x < m + 1 / 2) : em.roundedMantissa = m := by
  obtain ⟨k, r, s⟩ := em
  obtain ⟨h1, h2, h3, h4⟩ := h
  dsimp only at h1 h2 h3 h4
  have le_of (a b : ℕ) (hab : (a : ℚ) < b + 1) : a ≤ b := by
    have : a < b + 1 := by exact_mod_cast hab
    omega
  have hkm : k ≤ m := le_of k m (by linarith)
  have hmk : m ≤ k + 1 := le_of m (k + 1) (by push_cast; linarith)
  cases r with
  | false =>
    have hlt : x < k + 1 / 2 := not_le.mp fun hle => by simpa using h3.mpr hle
    have e : m = k := le_antisymm (le_of m k (by linarith)) hkm
    cases s <;> exact e.symm
  | true =>
    have hge := h3.mp rfl
    cases s with
    | false =>
      have hx : x = k + 1 / 2 := by
        by_contra hne
        have : x ≠ k := fun e => by linarith
        simpa using h4.mpr ⟨this, hne⟩
      have heven : m % 2 = 0 := by
        by_contra hodd
        obtain ⟨ha, hb⟩ := odd (by omega)
        have : k < m := by
          have : (k : ℚ) < m := by linarith
          exact_mod_cast this
        have : m < k + 1 := by
          have : (m : ℚ) < k + 1 := by linarith
          exact_mod_cast this
        omega
      show k + k % 2 = m
      omega
    | true =>
      obtain ⟨_, hne⟩ := h4.mp rfl
      have hgt : (k : ℚ) + 1 / 2 < x := lt_of_le_of_ne hge (Ne.symm hne)
      have : k < m := by
        have : (k : ℚ) < m := by linarith
        exact_mod_cast this
      show k + 1 = m
      omega

theorem ofFraction (k : ℕ) (r s : Bool) (f : ℚ) (h0 : 0 ≤ f) (h1 : f < 1)
    (hr : r = true ↔ 1 / 2 ≤ f) (hs : s = true ↔ f ≠ 0 ∧ f ≠ 1 / 2) : Holds ⟨k, r, s⟩ (k + f) where
  least := by dsimp only; linarith
  less := by dsimp only; linarith
  round := by
    rw [hr]
    dsimp only
    constructor <;> intro h <;> linarith
  sticky := by
    rw [hs]
    dsimp only
    constructor <;> rintro ⟨ha, hb⟩ <;>
      exact ⟨fun e => ha (by linarith), fun e => hb (by linarith)⟩

theorem ofDivision (a b : ℕ) (hb : 0 < b) :
    Holds (.ofMantissaAndAccuracy (a / b) (accuracyOfFraction (a % b) b)) ((a : ℚ) / b) := by
  have hb' : (0 : ℚ) < b := by exact_mod_cast hb
  have hx : (a : ℚ) / b = (a / b : ℕ) + ((a % b : ℕ) : ℚ) / b := by
    have : (a : ℚ) = b * (a / b : ℕ) + (a % b : ℕ) := by exact_mod_cast (Nat.div_add_mod a b).symm
    field_simp
    linarith
  have hr : ((a % b : ℕ) : ℚ) < b := by exact_mod_cast Nat.mod_lt a hb
  rw [hx]
  generalize a / b = k
  generalize a % b = r at *
  have hf : (r : ℚ) / b < 1 := (div_lt_one hb').mpr hr
  unfold accuracyOfFraction
  by_cases h0 : r = 0
  · rw [if_pos h0, h0, Nat.cast_zero, zero_div]
    exact ofFraction k false false 0 le_rfl one_pos (by norm_num) (by norm_num)
  · rw [if_neg h0]
    have hpos : (0 : ℚ) < r / b := by
      have : (0 : ℚ) < r := by exact_mod_cast Nat.pos_of_ne_zero h0
      positivity
    rcases lt_trichotomy (2 * r) b with h | h | h
    · have hh : (r : ℚ) / b < 1 / 2 := by
        have : 2 * (r : ℚ) < b := by exact_mod_cast h
        rw [div_lt_iff₀ hb']
        linarith
      rw [Nat.compare_eq_lt.mpr h]
      exact ofFraction k false true _ hpos.le hf ⟨fun h => by simp at h, fun h => by linarith⟩
        ⟨fun _ => ⟨hpos.ne', hh.ne⟩, fun _ => rfl⟩
    · have hh : (r : ℚ) / b = 1 / 2 := by
        have : 2 * (r : ℚ) = b := by exact_mod_cast h
        rw [div_eq_iff hb'.ne']
        linarith
      rw [Nat.compare_eq_eq.mpr h]
      exact ofFraction k true false _ hpos.le hf ⟨fun _ => hh.ge, fun _ => rfl⟩
        ⟨fun h => by simp at h, fun h => absurd hh h.2⟩
    · have hh : 1 / 2 < (r : ℚ) / b := by
        have : (b : ℚ) < 2 * r := by exact_mod_cast h
        rw [lt_div_iff₀ hb']
        linarith
      rw [Nat.compare_eq_gt.mpr h]
      exact ofFraction k true true _ hpos.le hf ⟨fun _ => hh.le, fun _ => rfl⟩
        ⟨fun _ => ⟨hpos.ne', hh.ne'⟩, fun _ => rfl⟩

end Holds

/-! ## floats and the numbers that round to them -/

/-- mantissas and exponents that are those of a positive float -/
structure Canonical (m : ℕ) (e : ℤ) : Prop where
  pos : 0 < m
  small : m < 2 * leastMantissa
  least : -1074 ≤ e
  greatest : e ≤ 971
  normal : leastMantissa ≤ m ∨ e = -1074

/-- how far below `m · 2 ^ e` the numbers reach that round to it, in quarters of `2 ^ e` -/
def reach (m : ℕ) (e : ℤ) : ℕ := if m = leastMantissa ∧ -1074 < e then 1 else 2

/-- the numbers that round to `m · 2 ^ e`; the ends belong to even mantissas -/
structure Near (m : ℕ) (e : ℤ) (q : ℚ) : Prop where
  lower : (4 * m - reach m e : ℚ) * 2 ^ (e - 2) ≤ q
  upper : q ≤ (4 * m + 2 : ℚ) * 2 ^ (e - 2)
  odd : m % 2 = 1 →
    (4 * m - reach m e : ℚ) * 2 ^ (e - 2) < q ∧ q < (4 * m + 2 : ℚ) * 2 ^ (e - 2)

theorem two_zpow_pos (n : ℤ) : (0 : ℚ) < 2 ^ n := zpow_pos two_pos n

theorem le_of_two_zpow_lt {a b : ℤ} (h : (2 : ℚ) ^ a < 2 ^ (b + 1)) : a ≤ b :=
  Int.lt_add_one_iff.mp ((zpow_lt_zpow_iff_right₀ one_lt_two).mp h)

theorem two_zpow_add (a b : ℤ) : (2 : ℚ) ^ (a + b) = 2 ^ a * 2 ^ b :=
  zpow_add₀ two_ne_zero a b

theorem leastMantissa_cast : (leastMantissa : ℚ) = 4503599627370496 := by norm_num [leastMantissa]

theorem reach_le (m : ℕ) (e : ℤ) : (reach m e : ℚ) ≤ 2 := by
  unfold reach
  split <;> norm_num

theorem targetExponent_eq (m : ℕ) (t : ℤ) :
    Format.binary64.targetExponent (totalExponent m t) = max (m.log2 + t - 52) (-1074) := by
  simp only [Format.targetExponent, totalExponent, Format.mantissaBits, Format.minExponent]
  norm_num
  omega

/-- the exponent of the leading digit of a number whose whole part is known -/
theorem leading_bounds {k : ℕ} {t : ℤ} {q : ℚ} (hk : k ≠ 0) (h1 : (k : ℚ) * 2 ^ t ≤ q)
    (h2 : q < (k + 1) * 2 ^ t) : (2 : ℚ) ^ (k.log2 + t) ≤ q ∧ q < 2 ^ (k.log2 + t + 1) := by
  have hl : (2 : ℚ) ^ k.log2 ≤ k := by exact_mod_cast Nat.log2_self_le hk
  have hu : (k : ℚ) + 1 ≤ 2 ^ (k.log2 + 1) := by
    exact_mod_cast Nat.succ_le_of_lt (Nat.lt_log2_self (n := k))
  have hp := two_zpow_pos t
  constructor
  · rw [two_zpow_add, zpow_natCast]
    exact (mul_le_mul_of_nonneg_right hl hp.le).trans h1
  · have e : (k.log2 : ℤ) + t + 1 = ((k.log2 + 1 : ℕ) : ℤ) + t := by push_cast; ring
    rw [e, two_zpow_add, zpow_natCast]
    exact h2.trans_le (mul_le_mul_of_nonneg_right hu hp.le)

/-- a number that rounds to `m · 2 ^ e` is rounded at the exponent `e`, or at the next smaller one
if it lies below a power of two -/
theorem Near.exponent {m : ℕ} {e : ℤ} {q : ℚ} (h : Near m e q) (c : Canonical m e) {k : ℕ} {t : ℤ}
    (h1 : (k : ℚ) * 2 ^ t ≤ q) (h2 : q < (k + 1) * 2 ^ t)
    (ht : t ≤ max (k.log2 + t - 52) (-1074)) :
    max (k.log2 + t - 52) (-1074) = e ∨
      m = leastMantissa ∧ -1074 < e ∧ max (k.log2 + t - 52) (-1074) = e - 1 ∧ q < 2 ^ (52 + e) := by
  have hp := two_zpow_pos (e - 2)
  have scale (n : ℤ) : (2 : ℚ) ^ (n + e) = 2 ^ (n + 2) * 2 ^ (e - 2) := by
    rw [← two_zpow_add]
    congr 1
    ring
  have hlo := h.lower
  have hhi := h.upper
  have hr := reach_le m e
  by_cases hk : k = 0
  · left
    have hlog : k.log2 = 0 := by rw [hk]; rfl
    rw [hlog] at ht ⊢
    rcases c.normal with hm | he
    · exfalso
      have hm' : (leastMantissa : ℚ) ≤ m := by exact_mod_cast hm
      have hq : (2 : ℚ) ^ e < q := by
        have e1 : (2 : ℚ) ^ e = 4 * 2 ^ (e - 2) := by
          have := scale 0
          norm_num at this
          exact this
        rw [e1]
        refine lt_of_lt_of_le (mul_lt_mul_of_pos_right ?_ hp) hlo
        rw [leastMantissa_cast] at hm'
        linarith
      have ht' : (2 : ℚ) ^ t ≤ 2 ^ e := zpow_le_zpow_right₀ one_le_two (by have := c.least; omega)
      rw [hk, Nat.cast_zero, zero_add, one_mul] at h2
      linarith
    · omega
  · obtain ⟨hl, hu⟩ := leading_bounds hk h1 h2
    have hL : (k.log2 : ℤ) + t ≤ 52 + e := by
      apply le_of_two_zpow_lt
      refine (hl.trans hhi).trans_lt ?_
      rw [show (52 + e + 1 : ℤ) = 53 + e by ring, scale 53]
      refine mul_lt_mul_of_pos_right ?_ hp
      have : (m : ℚ) + 1 ≤ 2 * leastMantissa := by exact_mod_cast c.small
      rw [leastMantissa_cast] at this
      norm_num
      linarith
    have hge {n : ℤ} (hn : (2 : ℚ) ^ (n + e) ≤ q) : n + e ≤ k.log2 + t :=
      le_of_two_zpow_lt (hn.trans_lt hu)
    have hleast := c.least
    rcases lt_trichotomy m leastMantissa with hm | hm | hm
    · have he : e = -1074 := c.normal.resolve_left (by omega)
      left
      omega
    · by_cases hq : q < 2 ^ (52 + e)
      · have hL' : (k.log2 : ℤ) + t ≤ 51 + e := by
          apply le_of_two_zpow_lt
          rw [show (51 + e + 1 : ℤ) = 52 + e by ring]
          exact hl.trans_lt hq
        by_cases he : e = -1074
        · left
          omega
        · have he' : -1074 < e := by omega
          have hreach : reach m e = 1 := if_pos ⟨hm, he'⟩
          have := hge (n := 51) (by
            rw [scale 51]
            refine (mul_le_mul_of_nonneg_right ?_ hp.le).trans hlo
            rw [hreach, hm]
            norm_num [leastMantissa])
          exact .inr ⟨hm, he', by omega, hq⟩
      · left
        have := hge (not_lt.mp hq)
        omega
    · left
      have := hge (n := 52) (by
        rw [scale 52]
        refine (mul_le_mul_of_nonneg_right ?_ hp.le).trans hlo
        have : (leastMantissa : ℚ) + 1 ≤ m := by exact_mod_cast hm
        rw [leastMantissa_cast] at this
        norm_num
        linarith)
      omega

/-! ## rounding -/

/-- a mantissa is shifted to the exponent that its leading digit asks for -/
theorem shiftToTargetExponent_eq (k : ℕ) (t : ℤ) (a : Accuracy)
    (ht : t ≤ max (k.log2 + t - 52) (-1074)) :
    shiftToTargetExponent Format.binary64 k t a
      = (ExtendedMantissa.ofMantissaAndAccuracy k a
          >>> (max (k.log2 + t - 52) (-1074) - t).toNat, max (k.log2 + t - 52) (-1074)) := by
  unfold shiftToTargetExponent
  rw [targetExponent_eq]
  refine Prod.ext rfl ?_
  show t + ((max ((k.log2 : ℤ) + t - 52) (-1074) - t).toNat : ℤ) = max ((k.log2 : ℤ) + t - 52) (-1074)
  omega

theorem Canonical.target {m : ℕ} {e : ℤ} (c : Canonical m e) :
    max ((m.log2 : ℤ) + e - 52) (-1074) = e := by
  have hlog : m.log2 < 53 := (Nat.log2_lt c.pos.ne').mpr c.small
  have hleast := c.least
  rcases c.normal with h | h
  · have : 52 ≤ m.log2 := (Nat.le_log2 c.pos.ne').mpr h
    omega
  · omega

/-- a mantissa and an exponent that are those of a float stay as they are -/
theorem Canonical.settled {m : ℕ} {e : ℤ} (c : Canonical m e) :
    shiftToTargetExponent Format.binary64 m e .exact = (⟨m, false, false⟩, e) := by
  rw [shiftToTargetExponent_eq m e _ c.target.ge, c.target, Int.sub_self]
  rfl

theorem two_zpow_quarter (e : ℤ) : (2 : ℚ) ^ e = 4 * 2 ^ (e - 2) := by
  rw [show e = 2 + (e - 2) by ring, two_zpow_add]
  norm_num

theorem Canonical.rounded_of_near {m : ℕ} {e : ℤ} {q : ℚ} (c : Canonical m e) (h : Near m e q)
    (s : Sign) {k : ℕ} {t : ℤ} {a : Accuracy}
    (hold : Holds (.ofMantissaAndAccuracy k a) (q / 2 ^ t))
    (hk : (ExtendedMantissa.ofMantissaAndAccuracy k a).mantissa = k)
    (ht : t ≤ max (k.log2 + t - 52) (-1074)) :
    roundWithAccuracy Format.binary64 s k t a = .finite s m e c.pos := by
  have hp := two_zpow_pos t
  have h1 : (k : ℚ) * 2 ^ t ≤ q := by
    have := hold.least
    rwa [hk, le_div_iff₀ hp] at this
  have h2 : q < (k + 1) * 2 ^ t := by
    have := hold.less
    rwa [hk, div_lt_iff₀ hp] at this
  have hexp := h.exponent c h1 h2 ht
  unfold roundWithAccuracy
  rw [shiftToTargetExponent_eq k t a ht]
  generalize max ((k.log2 : ℤ) + t - 52) (-1074) = T at *
  have hold' : Holds (ExtendedMantissa.ofMantissaAndAccuracy k a >>> (T - t).toNat) (q / 2 ^ T) := by
    have e1 : q / 2 ^ T = q / 2 ^ t / 2 ^ (T - t).toNat := by
      rw [div_div, ← zpow_natCast (2 : ℚ) (T - t).toNat, ← two_zpow_add]
      congr 2
      omega
    rw [e1]
    exact hold.shift _
  have hlo := h.lower
  have hhi := h.upper
  have hquarter := two_zpow_quarter e
  have hpq := two_zpow_pos (e - 2)
  have hpe := two_zpow_pos e
  rcases hexp with rfl | ⟨hm, he, rfl, hq⟩
  · have hr : reach m T ≤ 2 := by
      have := reach_le m T
      exact_mod_cast this
    have hr' := reach_le m T
    have lower : (m : ℚ) - 1 / 2 ≤ q / 2 ^ T := by
      rw [le_div_iff₀ hpe, hquarter]
      nlinarith
    have upper : q / 2 ^ T ≤ m + 1 / 2 := by
      rw [div_le_iff₀ hpe, hquarter]
      nlinarith
    have odd (ho : m % 2 = 1) : (m : ℚ) - 1 / 2 < q / 2 ^ T ∧ q / 2 ^ T < m + 1 / 2 := by
      obtain ⟨h3, h4⟩ := h.odd ho
      constructor
      · rw [lt_div_iff₀ hpe, hquarter]
        nlinarith
      · rw [div_lt_iff₀ hpe, hquarter]
        nlinarith
    have hround := hold'.rounded m lower upper odd
    dsimp only
    rw [hround, c.settled]
    exact dif_neg c.pos.ne'
  · -- just below a power of two the next exponent is smaller: the mantissa carries over
    have hreach : reach m e = 1 := if_pos ⟨hm, he⟩
    have hhalf : (2 : ℚ) ^ (e - 1) = 2 * 2 ^ (e - 2) := by
      rw [show e - 1 = 1 + (e - 2) by ring, two_zpow_add, zpow_one]
    have hph := two_zpow_pos (e - 1)
    rw [hreach, Nat.cast_one] at hlo
    have lower : ((2 * m : ℕ) : ℚ) - 1 / 2 ≤ q / 2 ^ (e - 1) := by
      rw [le_div_iff₀ hph, hhalf]
      push_cast
      linarith
    have upper : q / 2 ^ (e - 1) ≤ (2 * m : ℕ) + 1 / 2 := by
      have hq' : q ≤ m * 2 ^ e := by
        rw [hm, leastMantissa_cast]
        rw [two_zpow_add] at hq
        norm_num at hq ⊢
        exact hq.le
      rw [hquarter] at hq'
      rw [div_le_iff₀ hph, hhalf]
      push_cast
      linarith
    have hround := hold'.rounded (2 * m) lower upper (fun ho => by omega)
    have htarget : max (((2 * m).log2 : ℤ) + (e - 1) - 52) (-1074) = e := by
      have : (2 * m).log2 = 53 := by rw [hm]; decide
      rw [this]
      omega
    dsimp only
    rw [hround, shiftToTargetExponent_eq _ _ _ (by omega), htarget, show (e - (e - 1)).toNat = 1 by omega]
    have hone : ExtendedMantissa.ofMantissaAndAccuracy (2 * m) .exact >>> 1 = ⟨m, false, false⟩ := by
      show ExtendedMantissa.mk (2 * m / 2) (2 * m % 2 != 0) (false || false) = _
      rw [Nat.mul_div_cancel_left m two_pos, Nat.mul_mod_right]
      rfl
    dsimp only
    rw [hone]
    exact dif_neg c.pos.ne'

/-! ## quotients -/

theorem mantissa_ofMantissaAndAccuracy (k : ℕ) (a : Accuracy) :
    (ExtendedMantissa.ofMantissaAndAccuracy k a).mantissa = k := by
  cases a with
  | exact => rfl
  | inexact o => cases o <;> rfl

/-- **The quotient of two floats is the float that it is near to.** -/
theorem Canonical.div_of_near {m : ℕ} {e : ℤ} (c : Canonical m e) {m₁ m₂ : ℕ} {e₁ e₂ : ℤ}
    (h₁ : 0 < m₁) (h₂ : 0 < m₂)
    (h : Near m e ((m₁ : ℚ) * 2 ^ e₁ / (m₂ * 2 ^ e₂))) :
    div Format.binary64 (.finite .positive m₁ e₁ h₁) (.finite .positive m₂ e₂ h₂)
      = .finite .positive m e c.pos := by
  obtain ⟨t, ht⟩ : ∃ t, t = min (e₁ - e₂)
      (Format.binary64.targetExponent (totalExponent m₁ e₁ - totalExponent m₂ e₂)) := ⟨_, rfl⟩
  have hbound : t ≤ e₁ - e₂ ∧ t ≤ max (m₁.log2 - m₂.log2 + (e₁ - e₂) - 53) (-1074) := by
    rw [ht]
    simp only [Format.targetExponent, totalExponent, Format.mantissaBits, Format.minExponent]
    norm_num
    omega
  obtain ⟨n, hn⟩ : ∃ n : ℕ, (n : ℤ) = e₁ - e₂ - t := ⟨(e₁ - e₂ - t).toNat, by omega⟩
  have hshift : (e₁ - e₂ - t).toNat = n := by omega
  show roundWithAccuracy Format.binary64 _ _ _ _ = _
  rw [← ht, hshift]
  have hq : (m₁ : ℚ) * 2 ^ e₁ / (m₂ * 2 ^ e₂) / 2 ^ t = ((m₁ <<< n : ℕ) : ℚ) / m₂ := by
    have e1 : (2 : ℚ) ^ e₁ = 2 ^ n * (2 ^ e₂ * 2 ^ t) := by
      rw [← zpow_natCast, ← two_zpow_add, ← two_zpow_add]
      congr 1
      omega
    have := (two_zpow_pos e₂).ne'
    have := (two_zpow_pos t).ne'
    have : (m₂ : ℚ) ≠ 0 := by exact_mod_cast h₂.ne'
    rw [e1, Nat.shiftLeft_eq]
    push_cast
    field_simp
  refine c.rounded_of_near h .positive (hq ▸ Holds.ofDivision _ _ h₂)
    (mantissa_ofMantissaAndAccuracy _ _) ?_
  by_cases hmin : t ≤ -1074
  · omega
  · have hk : 2 ^ 52 ≤ (m₁ <<< n) / m₂ := by
      rw [Nat.le_div_iff_mul_le h₂, Nat.shiftLeft_eq]
      calc 2 ^ 52 * m₂ ≤ 2 ^ 52 * 2 ^ (m₂.log2 + 1) :=
            Nat.mul_le_mul_left _ (Nat.lt_log2_self (n := m₂)).le
        _ = 2 ^ (53 + m₂.log2) := by rw [← Nat.pow_add]; congr 1; omega
        _ ≤ 2 ^ (m₁.log2 + n) := Nat.pow_le_pow_right two_pos (by omega)
        _ = 2 ^ m₁.log2 * 2 ^ n := Nat.pow_add _ _ _
        _ ≤ m₁ * 2 ^ n := Nat.mul_le_mul_right _ (Nat.log2_self_le h₁.ne')
    have : 52 ≤ ((m₁ <<< n) / m₂).log2 :=
      (Nat.le_log2 (lt_of_lt_of_le (by norm_num) hk).ne').mpr hk
    omega

/-! ## powers of two and ten -/

theorem ten_pow_le_two_pow {a b : ℕ} (h : 10 * a ≤ 3 * b) : 10 ^ a ≤ 2 ^ b := by
  rw [← Nat.pow_le_pow_iff_left (n := 3) (by norm_num)]
  calc (10 ^ a) ^ 3 = 1000 ^ a := by rw [← Nat.pow_mul, Nat.mul_comm, Nat.pow_mul]
    _ ≤ 1024 ^ a := Nat.pow_le_pow_left (by norm_num) _
    _ = 2 ^ (10 * a) := by rw [Nat.pow_mul]
    _ ≤ 2 ^ (b * 3) := Nat.pow_le_pow_right two_pos (by omega)
    _ = (2 ^ b) ^ 3 := Nat.pow_mul _ _ _

theorem two_pow_le_ten_pow {a b : ℕ} (h : 31 * a ≤ 102 * b) : 2 ^ a ≤ 10 ^ b := by
  rw [← Nat.pow_le_pow_iff_left (n := 31) (by norm_num)]
  calc (2 ^ a) ^ 31 = 2 ^ (a * 31) := (Nat.pow_mul _ _ _).symm
    _ ≤ 2 ^ (102 * b) := Nat.pow_le_pow_right two_pos (by omega)
    _ = (2 ^ 102) ^ b := Nat.pow_mul _ _ _
    _ ≤ (10 ^ 31) ^ b := Nat.pow_le_pow_left (by norm_num) _
    _ = (10 ^ b) ^ 31 := by rw [← Nat.pow_mul, Nat.mul_comm, Nat.pow_mul]

end PathQuery.Decimal
