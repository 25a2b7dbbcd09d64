import PathQuery.Proofs.Decimal.Nearest
import PathQuery.Proofs.Decimal.Order

/-!
# Integers as floats

An integer is made a float by rounding it to 53 bits, halves to even mantissas; what is too large is
infinite. So no integer becomes less than a smaller one, and those of at most 53 bits keep apart.

* `Rounds x r`          `r` is the whole number that `x` is rounded to;
* `leading n`           the digits of a whole number, 53 of them in front of the point;
* `rank_ofNat`          what a whole number becomes;
* `rank_ofInt_mono`     the larger of two integers becomes no less than the other;
* `rank_ofInt_strict`   and more than it if both have at most 53 bits.
-/

namespace PathQuery.Decimal
open Float.Model Float.Model.UnpackedFloat

/-! ## rounding to whole numbers -/

/-- `r` is nearest to `x`; of two that are equally near, the even one -/
structure Rounds (x : ℚ) (r : ℕ) : Prop where
  lower : (r : ℚ) - 1 / 2 ≤ x
  upper : x ≤ r + 1 / 2
  odd : r % 2 = 1 → (r : ℚ) - 1 / 2 < x ∧ x < r + 1 / 2

theorem Rounds.self (n : ℕ) : Rounds n n :=
  ⟨by linarith, by linarith, fun _ => ⟨by linarith, by linarith⟩⟩

theorem Rounds.mono {x y : ℚ} {r s : ℕ} (hx : Rounds x r) (hy : Rounds y s) (hxy : x ≤ y) :
    r ≤ s := by
  by_contra hlt
  have hsr : (s : ℚ) + 1 ≤ r := by exact_mod_cast not_le.mp hlt
  have hlower := hx.lower
  have hupper := hy.upper
  -- both bounds are met, so the two are next to each other, and one of them is odd
  have hr : r = s + 1 := by
    have : (r : ℚ) ≤ s + 1 := by linarith
    exact le_antisymm (by exact_mod_cast this) (not_le.mp hlt)
  rcases Nat.mod_two_eq_zero_or_one s with heven | hodd
  · have := (hx.odd (by omega)).1
    linarith
  · have := (hy.odd hodd).2
    linarith

theorem Rounds.eq_of_nat {n r : ℕ} (h : Rounds n r) : r = n :=
  le_antisymm (h.mono (.self n) le_rfl) ((Rounds.self n).mono h le_rfl)

/-- what lies among the mantissas of 53 bits is rounded to one of them, or to the next power of
two -/
theorem Rounds.bounds {x : ℚ} {r : ℕ} (h : Rounds x r) (hlow : (leastMantissa : ℚ) ≤ x)
    (hhigh : x < 2 * leastMantissa) : leastMantissa ≤ r ∧ r ≤ 2 * leastMantissa :=
  ⟨(Rounds.self _).mono h hlow, h.mono (.self _) (by push_cast; exact hhigh.le)⟩

theorem Holds.rounds {em : ExtendedMantissa} {x : ℚ} (h : Holds em x) :
    Rounds x em.roundedMantissa := by
  obtain ⟨k, r, s⟩ := em
  obtain ⟨h1, h2, h3, h4⟩ := h
  dsimp only at h1 h2 h3 h4
  cases r with
  | false =>
    have hlt : x < k + 1 / 2 := not_le.mp fun hle => by simpa using h3.mpr hle
    have hr : (⟨k, false, s⟩ : ExtendedMantissa).roundedMantissa = k := by cases s <;> rfl
    rw [hr]
    exact ⟨by linarith, hlt.le, fun _ => ⟨by linarith, hlt⟩⟩
  | true =>
    have hge := h3.mp rfl
    cases s with
    | false =>
      have hx : x = k + 1 / 2 := by
        by_contra hne
        have : x ≠ k := fun e => by linarith
        simpa using h4.mpr ⟨this, hne⟩
      show Rounds x (k + k % 2)
      rcases Nat.mod_two_eq_zero_or_one k with heven | hodd
      · rw [heven, Nat.add_zero]
        exact ⟨by linarith, hx.le, fun hodd => by omega⟩
      · rw [hodd]
        refine ⟨?_, ?_, fun h => by omega⟩ <;> push_cast <;> linarith
    | true =>
      have hgt : (k : ℚ) + 1 / 2 < x := lt_of_le_of_ne hge (Ne.symm (h4.mp rfl).2)
      show Rounds x (k + 1)
      refine ⟨?_, ?_, fun _ => ⟨?_, ?_⟩⟩ <;> push_cast <;> linarith

/-! ## rounding to floats -/

/-- a mantissa of 53 bits is that of a float, unless the exponent is too large -/
theorem rank_pack {m : ℕ} {e : ℤ} (h : 0 < m) (hlow : leastMantissa ≤ m)
    (hhigh : m < 2 * leastMantissa) (he : -1074 ≤ e) :
    let u := (Float.Model.pack (.finite .positive m e h)).unpack
    IsNumber u ∧ rankOf u = min ((e + 1074) * leastMantissa + m) (2047 * leastMantissa) := by
  intro u
  by_cases hgreatest : e ≤ 971
  · have c : Canonical m e := ⟨h, hhigh, he, hgreatest, .inl hlow⟩
    have hu : u = .finite .positive m e h := c.unpack_pack .positive
    rw [hu]
    exact ⟨c, (min_eq_left c.rank_lt.le).symm⟩
  · have hpack : UnpackedFloat.pack Format.binary64 (.finite .positive m e h)
        = packedInfinity Format.binary64 .positive := by
      refine if_pos ?_
      show 2 ^ 11 ≤ (e + (1023 : ℕ) + (52 : ℕ)).toNat + 1
      omega
    have hu : u = .infinity .positive := by
      show UnpackedFloat.unpack Format.binary64 (UnpackedFloat.pack Format.binary64 _) = _
      rw [hpack]
      rfl
    rw [hu]
    refine ⟨trivial, ?_⟩
    show (2047 * leastMantissa : ℤ) = _
    rw [min_eq_right]
    norm_num [leastMantissa] at hlow ⊢
    omega

/-- a mantissa that has its bits already is not rounded again, but it is halved if it has one
more -/
theorem shiftToTargetExponent_rounded {r : ℕ} {T : ℤ} (hT : -1074 ≤ T) (hlow : leastMantissa ≤ r)
    (hhigh : r ≤ 2 * leastMantissa) :
    ∃ m e, leastMantissa ≤ m ∧ m < 2 * leastMantissa ∧ T ≤ e ∧
      (e + 1074) * leastMantissa + m = (T + 1074) * leastMantissa + r ∧
      shiftToTargetExponent Format.binary64 r T .exact = (⟨m, false, false⟩, e) := by
  rcases hhigh.lt_or_eq with hlt | rfl
  · have hlog : r.log2 = 52 := (Nat.log2_eq_iff (by omega)).mpr ⟨hlow, hlt⟩
    have htarget : max ((r.log2 : ℤ) + T - 52) (-1074) = T := by omega
    refine ⟨r, T, hlow, hlt, le_rfl, rfl, ?_⟩
    rw [shiftToTargetExponent_eq r T _ htarget.ge, htarget, Int.sub_self]
    rfl
  · have hlog : (2 * leastMantissa).log2 = 53 := by decide
    have htarget : max (((2 * leastMantissa).log2 : ℤ) + T - 52) (-1074) = T + 1 := by omega
    refine ⟨leastMantissa, T + 1, le_rfl, by decide, by omega, by push_cast; ring, ?_⟩
    rw [shiftToTargetExponent_eq _ T _ (by omega), htarget, show (T + 1 - T).toNat = 1 by omega]
    rfl

/-- a number of which `2 ^ T` is the unit is rounded to a whole number of units -/
theorem rank_round {k : ℕ} {t T : ℤ} {q : ℚ} (hk : 0 < k) (hq : (k : ℚ) * 2 ^ t = q)
    (hT : -1074 ≤ T) (ht : t ≤ T) (hlow : leastMantissa ≤ q / 2 ^ T)
    (hhigh : q / 2 ^ T < 2 * leastMantissa) :
    let u := (Float.Model.pack (roundWithAccuracy Format.binary64 .positive k t .exact)).unpack
    IsNumber u ∧ ∃ r, Rounds (q / 2 ^ T) r ∧
      rankOf u = min ((T + 1074) * leastMantissa + r) (2047 * leastMantissa) := by
  have hp := two_zpow_pos T
  have htarget : max ((k.log2 : ℤ) + t - 52) (-1074) = T := by
    obtain ⟨h1, h2⟩ := leading_bounds hk.ne' hq.le
      (by rw [← hq]; exact mul_lt_mul_of_pos_right (by linarith) (two_zpow_pos t))
    have hlow' : (2 : ℚ) ^ (52 + T) ≤ q := by
      rw [le_div_iff₀ hp, leastMantissa_cast] at hlow
      rw [two_zpow_add]
      norm_num
      exact hlow
    have hhigh' : q < 2 ^ (52 + T + 1) := by
      rw [div_lt_iff₀ hp, leastMantissa_cast] at hhigh
      rw [show 52 + T + 1 = 53 + T by ring, two_zpow_add]
      norm_num at hhigh ⊢
      exact hhigh
    have h3 : (k.log2 : ℤ) + t ≤ 52 + T := le_of_two_zpow_lt (h1.trans_lt hhigh')
    have h4 : 52 + T ≤ (k.log2 : ℤ) + t := le_of_two_zpow_lt (hlow'.trans_lt h2)
    omega
  obtain ⟨n, hn⟩ : ∃ n : ℕ, T - t = n := ⟨(T - t).toNat, by omega⟩
  have hold : Holds (ExtendedMantissa.ofMantissaAndAccuracy k .exact >>> n) (q / 2 ^ T) := by
    have hbase : Holds (.ofMantissaAndAccuracy k .exact) (k : ℚ) := by
      have h := Holds.ofFraction k false false 0 le_rfl one_pos (by norm_num) (by norm_num)
      rwa [add_zero] at h
    have hdiv : q / 2 ^ T = k / 2 ^ n := by
      rw [← hq, show T = t + n by omega, two_zpow_add, zpow_natCast]
      have := two_zpow_pos t
      field_simp
    rw [hdiv]
    exact hbase.shift n
  obtain ⟨r, hr⟩ : ∃ r,
      (ExtendedMantissa.ofMantissaAndAccuracy k .exact >>> n).roundedMantissa = r := ⟨_, rfl⟩
  have hrounds : Rounds (q / 2 ^ T) r := hr ▸ hold.rounds
  obtain ⟨hge, hle⟩ := hrounds.bounds hlow hhigh
  obtain ⟨m, e, hm, hm', he, hrank, hshift⟩ := shiftToTargetExponent_rounded hT hge hle
  have hpos : 0 < m := lt_of_lt_of_le (by decide) hm
  have hround : roundWithAccuracy Format.binary64 .positive k t .exact
      = .finite .positive m e hpos := by
    unfold roundWithAccuracy
    rw [shiftToTargetExponent_eq k t _ (by omega), htarget, hn, Int.toNat_natCast]
    dsimp only
    rw [hr, hshift]
    exact dif_neg hpos.ne'
  rw [hround]
  obtain ⟨hnumber, hrank'⟩ := rank_pack hpos hm hm' (hT.trans he)
  exact ⟨hnumber, r, hrounds, hrank'.trans (by rw [hrank])⟩

/-! ## whole numbers -/

theorem toModel_ofNat {n : ℕ} (h : 0 < n) :
    ∃ (k : ℕ) (t : ℤ), 0 < k ∧ (k : ℚ) * 2 ^ t = n ∧ t ≤ n.log2 - 52 ∧ (Float.ofNat n).toModel
      = Float.Model.pack (roundWithAccuracy Format.binary64 .positive k t .exact) := by
  by_cases hsmall : n < 2 ^ 53
  · obtain ⟨m, e, hm, hu, hv⟩ := unpack_ofUInt64 h hsmall
    have h0 : 0 < 23 := by decide
    have hcast := mantissaOfTen_cast 0 h0
    have hpos := (canonical_powerOfTen 0 h0).pos
    have he : e ≤ n.log2 := by
      refine le_of_two_zpow_lt (lt_of_le_of_lt (b := (n : ℚ)) ?_ ?_)
      · have : (1 : ℚ) ≤ m := by exact_mod_cast hm
        have := two_zpow_pos e
        nlinarith
      · exact_mod_cast Nat.lt_log2_self (n := n)
    refine ⟨m * mantissaOfTen 0, e + (((10 ^ 0).log2 : ℕ) - 52), Nat.mul_pos hm hpos, ?_, ?_, ?_⟩
    · rw [two_zpow_add, ← hv]
      push_cast
      calc (m : ℚ) * mantissaOfTen 0 * (2 ^ e * 2 ^ (((10 ^ 0).log2 : ℤ) - 52))
          = m * 2 ^ e * (mantissaOfTen 0 * 2 ^ (((10 ^ 0).log2 : ℤ) - 52)) := by ring
        _ = m * 2 ^ e := by rw [hcast, pow_zero, mul_one]
    · have : (10 ^ 0).log2 = 0 := by decide
      omega
    · show (Float.ofScientific n false 0).toModel = _
      unfold Float.ofScientific
      rw [dif_pos ⟨hsmall, by decide⟩]
      show Float.Model.pack (UnpackedFloat.mul Format.binary64 n.toUInt64.toFloat.toModel.unpack
        (getElem Float.exactlyRepresentablePowersOfTen 0 h0).toModel.unpack) = _
      rw [hu, unpack_powerOfTen 0 h0]
      rfl
  · have hlog : 53 ≤ n.log2 := (Nat.le_log2 h.ne').mpr (not_lt.mp hsmall)
    refine ⟨(n <<< 53) * 10 ^ 0, -53 + 0, by rw [Nat.shiftLeft_eq]; positivity, ?_, by omega, ?_⟩
    · rw [Nat.shiftLeft_eq, add_zero, zpow_neg]
      push_cast
      norm_num [mul_assoc]
    · show (Float.ofScientific n false 0).toModel = _
      unfold Float.ofScientific
      rw [dif_neg fun h => hsmall h.1]
      show Float.Model.pack (UnpackedFloat.ofScientific Format.binary64 n 0) = _
      unfold UnpackedFloat.ofScientific
      rw [dif_neg h.ne', if_neg (by norm_num), if_neg (by norm_num), if_pos le_rfl]
      rfl

/-- the digits of a whole number, of which 53 stand in front of the point -/
def leading (n : ℕ) : ℚ := n / 2 ^ ((n.log2 : ℤ) - 52)

theorem leading_range {n : ℕ} (h : 0 < n) :
    leastMantissa ≤ leading n ∧ leading n < 2 * leastMantissa := by
  have hp := two_zpow_pos ((n.log2 : ℤ) - 52)
  have hlow : (2 : ℚ) ^ n.log2 ≤ n := by exact_mod_cast Nat.log2_self_le h.ne'
  have hhigh : (n : ℚ) < 2 ^ (n.log2 + 1) := by exact_mod_cast Nat.lt_log2_self (n := n)
  have hscale : (2 : ℚ) ^ n.log2 = leastMantissa * 2 ^ ((n.log2 : ℤ) - 52) := by
    rw [← zpow_natCast, show (n.log2 : ℤ) = 52 + (n.log2 - 52) by ring, two_zpow_add,
      leastMantissa_cast, add_sub_cancel]
    norm_num
  rw [hscale] at hlow
  rw [pow_succ, hscale] at hhigh
  unfold leading
  rw [le_div_iff₀ hp, div_lt_iff₀ hp]
  exact ⟨hlow, by linarith⟩

theorem rank_ofNat {n : ℕ} (h : 0 < n) : (Float.ofNat n).isNaN = false ∧
    ∃ r, Rounds (leading n) r ∧ rank (Float.ofNat n)
      = min (((n.log2 : ℤ) + 1022) * leastMantissa + r) (2047 * leastMantissa) := by
  obtain ⟨k, t, hk, hv, ht, hmodel⟩ := toModel_ofNat h
  obtain ⟨hlow, hhigh⟩ := leading_range h
  obtain ⟨hnumber, r, hr, hrank⟩ := rank_round hk hv (by omega) ht hlow hhigh
  rw [← hmodel] at hnumber hrank
  refine ⟨isNumber_iff.mp hnumber, r, hr, hrank.trans ?_⟩
  rw [show (n.log2 : ℤ) - 52 + 1074 = n.log2 + 1022 by ring]

theorem rank_zero : (Float.ofNat 0).isNaN = false ∧ rank (Float.ofNat 0) = 0 := by
  decide +kernel

theorem isNaN_ofNat (n : ℕ) : (Float.ofNat n).isNaN = false := by
  rcases n.eq_zero_or_pos with rfl | h
  · exact rank_zero.1
  · exact (rank_ofNat h).1

theorem rank_ofNat_nonneg (n : ℕ) : 0 ≤ rank (Float.ofNat n) := by
  rcases n.eq_zero_or_pos with rfl | h
  · exact rank_zero.2.ge
  · obtain ⟨-, r, -, hrank⟩ := rank_ofNat h
    rw [hrank]
    positivity

theorem leading_le {m n : ℕ} (h : m ≤ n) (hlog : m.log2 = n.log2) : leading m ≤ leading n := by
  unfold leading
  rw [hlog]
  exact div_le_div_of_nonneg_right (by exact_mod_cast h) (two_zpow_pos _).le

theorem rank_ofNat_mono {m n : ℕ} (h : m ≤ n) : rank (Float.ofNat m) ≤ rank (Float.ofNat n) := by
  rcases m.eq_zero_or_pos with rfl | hm
  · rw [rank_zero.2]
    exact rank_ofNat_nonneg n
  have hn := hm.trans_le h
  obtain ⟨-, r, hr, hrank⟩ := rank_ofNat hm
  obtain ⟨-, s, hs, hrank'⟩ := rank_ofNat hn
  rw [hrank, hrank']
  refine min_le_min_right _ ?_
  have hlog : m.log2 ≤ n.log2 := (Nat.le_log2 hn.ne').mpr ((Nat.log2_self_le hm.ne').trans h)
  rcases hlog.eq_or_lt with heq | hlt
  · have := hr.mono hs (leading_le h heq)
    rw [heq]
    omega
  · -- the one is at most the power of two from which the other's digits begin
    have hle := (hr.bounds (leading_range hm).1 (leading_range hm).2).2
    have hge := (hs.bounds (leading_range hn).1 (leading_range hn).2).1
    norm_num [leastMantissa] at hle hge ⊢
    omega

theorem leading_exact {n r : ℕ} (h : n ≤ 2 ^ 53) (hr : Rounds (leading n) r) : leading n = r := by
  obtain ⟨w, hw⟩ : ∃ w : ℕ, leading n = w := by
    rcases h.eq_or_lt with rfl | hlt
    · refine ⟨2 ^ 52, ?_⟩
      unfold leading
      rw [Nat.log2_two_pow]
      norm_num
    · have hlog : n.log2 ≤ 52 := by
        rcases n.eq_zero_or_pos with rfl | hpos
        · decide
        · exact Nat.lt_succ_iff.mp ((Nat.log2_lt hpos.ne').mpr hlt)
      refine ⟨n * 2 ^ (52 - n.log2), ?_⟩
      unfold leading
      rw [show (n.log2 : ℤ) - 52 = -((52 - n.log2 : ℕ) : ℤ) by omega, zpow_neg, zpow_natCast,
        div_inv_eq_mul]
      push_cast
      rfl
  rw [hw] at hr ⊢
  rw [hr.eq_of_nat]

theorem rank_ofNat_strict {m n : ℕ} (h : m < n) (hsmall : n ≤ 2 ^ 53) :
    rank (Float.ofNat m) < rank (Float.ofNat n) := by
  have hn : 0 < n := Nat.zero_lt_of_lt h
  have hlog : n.log2 ≤ 53 := Nat.lt_succ_iff.mp ((Nat.log2_lt hn.ne').mpr (by omega))
  obtain ⟨-, s, hs, hrank'⟩ := rank_ofNat hn
  have hge := (hs.bounds (leading_range hn).1 (leading_range hn).2).1
  have hle' := (hs.bounds (leading_range hn).1 (leading_range hn).2).2
  rcases m.eq_zero_or_pos with rfl | hm
  · rw [rank_zero.2, hrank']
    norm_num [leastMantissa] at hge ⊢
    omega
  obtain ⟨-, r, hr, hrank⟩ := rank_ofNat hm
  have hr' : leading m = r := leading_exact (h.le.trans hsmall) hr
  have hs' : leading n = s := leading_exact hsmall hs
  have hlog' : m.log2 ≤ n.log2 :=
    (Nat.le_log2 hn.ne').mpr ((Nat.log2_self_le hm.ne').trans h.le)
  rw [hrank, hrank']
  rcases hlog'.eq_or_lt with heq | hlt
  · have hlt : leading m < leading n := by
      unfold leading
      rw [heq]
      exact div_lt_div_of_pos_right (by exact_mod_cast h) (two_zpow_pos _)
    rw [hr', hs'] at hlt
    have : r < s := by exact_mod_cast hlt
    norm_num [leastMantissa] at hge hle' ⊢
    omega
  · have hlt := (leading_range hm).2
    rw [hr'] at hlt
    have : r < 2 * leastMantissa := by exact_mod_cast hlt
    norm_num [leastMantissa] at this hge hle' ⊢
    omega

/-! ## integers -/

theorem isNaN_ofInt (n : ℤ) : (Float.ofInt n).isNaN = false := by
  cases n with
  | ofNat n => exact isNaN_ofNat n
  | negSucc n => exact isNaN_neg (isNaN_ofNat (n + 1))

theorem rank_ofInt_neg (n : ℕ) : rank (Float.ofInt (-n)) = -rank (Float.ofNat n) := by
  cases n with
  | zero => exact rank_zero.2.trans (by rw [rank_zero.2, neg_zero])
  | succ n => exact rank_neg (isNaN_ofNat (n + 1))

/-- **The larger of two integers becomes no less than the other.** -/
theorem rank_ofInt_mono {m n : ℤ} (h : m ≤ n) : rank (Float.ofInt m) ≤ rank (Float.ofInt n) := by
  obtain ⟨a, rfl | rfl⟩ := Int.eq_nat_or_neg m <;> obtain ⟨b, rfl | rfl⟩ := Int.eq_nat_or_neg n
  · exact rank_ofNat_mono (by omega)
  · obtain rfl : a = 0 := by omega
    obtain rfl : b = 0 := by omega
    exact le_rfl
  · have ha := rank_ofNat_nonneg a
    have hb := rank_ofNat_nonneg b
    rw [rank_ofInt_neg]
    show _ ≤ rank (Float.ofNat b)
    omega
  · rw [rank_ofInt_neg, rank_ofInt_neg]
    exact neg_le_neg (rank_ofNat_mono (by omega))

/-- **Of two integers of at most 53 bits the larger becomes more than the other.** -/
theorem rank_ofInt_strict {m n : ℤ} (h : m < n) (hm : m.natAbs ≤ 2 ^ 53)
    (hn : n.natAbs ≤ 2 ^ 53) : rank (Float.ofInt m) < rank (Float.ofInt n) := by
  obtain ⟨a, rfl | rfl⟩ := Int.eq_nat_or_neg m <;> obtain ⟨b, rfl | rfl⟩ := Int.eq_nat_or_neg n
  · exact rank_ofNat_strict (by omega) (by omega)
  · omega
  · have ha := rank_ofNat_nonneg a
    have hb := rank_ofNat_nonneg b
    rw [rank_ofInt_neg]
    show _ < rank (Float.ofNat b)
    rcases a.eq_zero_or_pos with rfl | hpos
    · have := rank_ofNat_strict (m := 0) (n := b) (by omega) (by omega)
      rw [rank_zero.2] at this ⊢
      omega
    · have := rank_ofNat_strict hpos (by omega)
      rw [rank_zero.2] at this
      omega
  · rw [rank_ofInt_neg, rank_ofInt_neg]
    exact neg_lt_neg (rank_ofNat_strict (by omega) (by omega))

end PathQuery.Decimal
