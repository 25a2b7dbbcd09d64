import PathQuery.Proofs.Decimal.Bits

/-!
# The order of floats

Floats are compared by their signs, their exponents and their mantissas. All that comes to one whole
number for each float, its rank: of two floats that are numbers, the one with the lower rank is
less, and those of one rank are equal.

* `rankOf`, `rank`         the rank;
* `IsNumber`               what holds of all floats that are numbers, infinite ones too;
* `compare_eq`             floats compare as their ranks;
* `lt_iff`, `beq_iff`      the same of the two comparisons.
-/

namespace PathQuery.Decimal
open Float.Model Float.Model.UnpackedFloat

/-- where a float stands among all; both zeros stand in the middle, the infinite ones at the ends -/
def rankOf : UnpackedFloat → ℤ
  | .notANumber => 0
  | .infinity s => s.apply (2047 * leastMantissa)
  | .zero _ => 0
  | .finite s m e _ => s.apply ((e + 1074) * leastMantissa + m)

/-- a number, written in the one way that floats are -/
def IsNumber : UnpackedFloat → Prop
  | .notANumber => False
  | .infinity _ => True
  | .zero _ => True
  | .finite _ m e _ => Canonical m e

section
variable {m m' : ℕ} {e e' : ℤ}

theorem Canonical.rank_pos (c : Canonical m e) : 0 < (e + 1074) * leastMantissa + m := by
  obtain ⟨hpos, -, hleast, -, -⟩ := c
  norm_num [leastMantissa]
  omega

theorem Canonical.rank_lt (c : Canonical m e) :
    (e + 1074) * leastMantissa + m < 2047 * leastMantissa := by
  obtain ⟨-, hsmall, -, hgreatest, -⟩ := c
  norm_num [leastMantissa] at hsmall ⊢
  omega

theorem Canonical.compare_eq (c : Canonical m e) (c' : Canonical m' e') :
    (compare e e').then (compare m m')
      = compare ((e + 1074) * leastMantissa + m : ℤ) ((e' + 1074) * leastMantissa + m') := by
  obtain ⟨-, hsmall, hleast, -, hnormal⟩ := c
  obtain ⟨-, hsmall', hleast', -, hnormal'⟩ := c'
  norm_num [leastMantissa] at hsmall hsmall' hnormal hnormal' ⊢
  rcases lt_trichotomy e e' with h | rfl | h
  · rw [compare_lt_iff_lt.mpr h]
    exact (compare_lt_iff_lt.mpr (by omega)).symm
  · rw [compare_eq_iff_eq.mpr rfl]
    show compare m m' = _
    rcases lt_trichotomy m m' with h | rfl | h
    · rw [compare_lt_iff_lt.mpr h, compare_lt_iff_lt.mpr (by omega)]
    · rw [compare_eq_iff_eq.mpr rfl, compare_eq_iff_eq.mpr rfl]
    · rw [compare_gt_iff_gt.mpr h, compare_gt_iff_gt.mpr (by omega)]
  · rw [compare_gt_iff_gt.mpr h]
    exact (compare_gt_iff_gt.mpr (by omega)).symm

end

theorem compare_neg (a b : ℤ) : compare (-a) (-b) = (compare a b).swap := by
  rcases lt_trichotomy a b with h | rfl | h
  · rw [compare_lt_iff_lt.mpr h, compare_gt_iff_gt.mpr (by omega)]
    rfl
  · rw [compare_eq_iff_eq.mpr rfl, compare_eq_iff_eq.mpr rfl]
    rfl
  · rw [compare_gt_iff_gt.mpr h, compare_lt_iff_lt.mpr (by omega)]
    rfl

/-- **Floats that are numbers compare as their ranks.** -/
theorem compare_eq {u v : UnpackedFloat} (hu : IsNumber u) (hv : IsNumber v) :
    u.compare v = some (compare (rankOf u) (rankOf v)) := by
  have hinf : (0 : ℤ) < 2047 * leastMantissa := by decide
  have less {a b : ℤ} (h : a < b) : some Ordering.lt = some (compare a b) :=
    congrArg some (compare_lt_iff_lt.mpr h).symm
  have greater {a b : ℤ} (h : b < a) : some Ordering.gt = some (compare a b) :=
    congrArg some (compare_gt_iff_gt.mpr h).symm
  have equal (a : ℤ) : some Ordering.eq = some (compare a a) :=
    congrArg some (compare_eq_iff_eq.mpr rfl).symm
  cases u with
  | notANumber => exact hu.elim
  | infinity s =>
    cases v with
    | notANumber => exact hv.elim
    | infinity t =>
      cases s <;> cases t
      · exact equal _
      · exact less (by simp only [rankOf, Sign.apply]; omega)
      · exact greater (by simp only [rankOf, Sign.apply]; omega)
      · exact equal _
    | zero t =>
      cases s
      · exact less (by simp only [rankOf, Sign.apply]; omega)
      · exact greater hinf
    | finite t m e h =>
      have hpos := Canonical.rank_pos hv
      have hlt := Canonical.rank_lt hv
      cases s <;> cases t
      · exact less (by simp only [rankOf, Sign.apply]; omega)
      · exact less (by simp only [rankOf, Sign.apply]; omega)
      · exact greater (by simp only [rankOf, Sign.apply]; omega)
      · exact greater hlt
  | zero s =>
    cases v with
    | notANumber => exact hv.elim
    | infinity t =>
      cases t
      · exact greater (by simp only [rankOf, Sign.apply]; omega)
      · exact less hinf
    | zero t => exact equal _
    | finite t m e h =>
      have hpos := Canonical.rank_pos hv
      cases t
      · exact greater (by simp only [rankOf, Sign.apply]; omega)
      · exact less hpos
  | finite s m e h =>
    have hpos := Canonical.rank_pos hu
    have hlt := Canonical.rank_lt hu
    cases v with
    | notANumber => exact hv.elim
    | infinity t =>
      cases s <;> cases t
      · exact greater (by simp only [rankOf, Sign.apply]; omega)
      · exact less (by simp only [rankOf, Sign.apply]; omega)
      · exact greater (by simp only [rankOf, Sign.apply]; omega)
      · exact less hlt
    | zero t =>
      cases s
      · exact less (by simp only [rankOf, Sign.apply]; omega)
      · exact greater hpos
    | finite t m' e' h' =>
      have hpos' := Canonical.rank_pos hv
      have hcompare := Canonical.compare_eq hu hv
      cases s <;> cases t
      · show some (((compare e e').then (compare m m')).swap) = some (compare (-_) (-_))
        rw [compare_neg, hcompare]
      · exact less (by simp only [rankOf, Sign.apply]; omega)
      · exact greater (by simp only [rankOf, Sign.apply]; omega)
      · exact congrArg some hcompare

/-! ## floats -/

/-- what is kept as bits is a number in the one way that it is written, or it is none -/
theorem unpack_cases (b : BitVec Format.binary64.numBits) :
    UnpackedFloat.unpack Format.binary64 b = .notANumber ∨
      IsNumber (UnpackedFloat.unpack Format.binary64 b) := by
  have he : (unpackExponent b).toNat < 2 ^ 11 := (unpackExponent b).isLt
  have hm : (unpackMantissa b).toNat < 2 ^ 52 := (unpackMantissa b).isLt
  unfold UnpackedFloat.unpack
  dsimp only
  split_ifs with h1 h2 h3 h4
  · exact .inr trivial
  · exact .inl rfl
  · exact .inr trivial
  · have hpos : (unpackMantissa b).toNat ≠ 0 := fun h => h4 (BitVec.eq_of_toNat_eq h)
    have hzero : (unpackExponent b).toNat = 0 := congrArg BitVec.toNat h3
    rw [hzero]
    exact .inr ⟨Nat.pos_of_ne_zero hpos, hm.trans (by decide), by decide, by decide, .inr rfl⟩
  · have hmantissa : (1#1 ++ unpackMantissa b).toNat
        = leastMantissa + (unpackMantissa b).toNat := by
      rw [BitVec.toNat_append, ← Nat.shiftLeft_add_eq_or_of_lt (unpackMantissa b).isLt]
      rfl
    have hzero : (unpackExponent b).toNat ≠ 0 := fun h => h3 (BitVec.eq_of_toNat_eq h)
    have hones : (unpackExponent b).toNat ≠ 2047 := fun h => h1 (BitVec.eq_of_toNat_eq h)
    refine .inr ?_
    show Canonical (1#1 ++ unpackMantissa b).toNat ((unpackExponent b).toNat - (1023 + 52))
    rw [hmantissa]
    refine ⟨?_, ?_, by omega, by omega, .inl (Nat.le_add_right _ _)⟩ <;>
      norm_num [leastMantissa] at hm ⊢
    omega

theorem isNumber_iff {x : Float} : IsNumber x.toModel.unpack ↔ x.isNaN = false := by
  show _ ↔ x.toModel.unpack.isNaN = false
  obtain hnan | hnumber := unpack_cases x.toModel.toBits.toBitVec
  · rw [show x.toModel.unpack = .notANumber from hnan]
    exact ⟨False.elim, nofun⟩
  · refine ⟨fun _ => ?_, fun _ => hnumber⟩
    change IsNumber x.toModel.unpack at hnumber
    cases hu : x.toModel.unpack with
    | notANumber =>
      rw [hu] at hnumber
      exact hnumber.elim
    | _ => rfl

theorem IsNumber.unpack_pack {u : UnpackedFloat} (h : IsNumber u) :
    (Float.Model.pack u).unpack = u := by
  cases u with
  | notANumber => exact h.elim
  | infinity s => cases s <;> rfl
  | zero s => cases s <;> rfl
  | finite s m e hpos => exact Canonical.unpack_pack h s

theorem IsNumber.neg {u : UnpackedFloat} (h : IsNumber u) : IsNumber u.neg := by
  cases u with
  | notANumber => exact h.elim
  | infinity s => trivial
  | zero s => trivial
  | finite s m e hpos => exact h

theorem rankOf_neg (u : UnpackedFloat) : rankOf u.neg = -rankOf u := by
  cases u with
  | notANumber => rfl
  | zero s => rfl
  | infinity s =>
    cases s
    · exact (neg_neg _).symm
    · rfl
  | finite s m e h =>
    cases s
    · exact (neg_neg _).symm
    · rfl

def rank (x : Float) : ℤ := rankOf x.toModel.unpack

section
variable {x y : Float}

theorem lt_iff (hx : x.isNaN = false) (hy : y.isNaN = false) : x < y ↔ rank x < rank y := by
  show (decide ((x.toModel.unpack.compare y.toModel.unpack == some Ordering.lt) = true)) = true ↔ _
  rw [compare_eq (isNumber_iff.mpr hx) (isNumber_iff.mpr hy), decide_eq_true_iff, beq_iff_eq,
    Option.some.injEq, compare_lt_iff_lt]
  rfl

theorem beq_iff (hx : x.isNaN = false) (hy : y.isNaN = false) :
    (x == y) = true ↔ rank x = rank y := by
  show (x.toModel.unpack.compare y.toModel.unpack == some Ordering.eq) = true ↔ _
  rw [compare_eq (isNumber_iff.mpr hx) (isNumber_iff.mpr hy), beq_iff_eq, Option.some.injEq,
    compare_eq_iff_eq]
  rfl

theorem unpack_neg (hx : x.isNaN = false) : (-x).toModel.unpack = x.toModel.unpack.neg :=
  (isNumber_iff.mpr hx).neg.unpack_pack

theorem isNaN_neg (hx : x.isNaN = false) : (-x).isNaN = false := by
  rw [← isNumber_iff, unpack_neg hx]
  exact (isNumber_iff.mpr hx).neg

theorem rank_neg (hx : x.isNaN = false) : rank (-x) = -rank x := by
  rw [rank, unpack_neg hx, rankOf_neg, rank]

end

end PathQuery.Decimal
