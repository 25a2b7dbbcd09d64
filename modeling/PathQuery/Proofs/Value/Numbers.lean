import PathQuery.Proofs.Decimal.Integers
import PathQuery.Value.Comparison

/-!
# Numbers in filters

Two integers compare as they are, but with a float an integer compares as the float that it becomes.
The integers keep their order there, so all numbers stand in one row; only that several integers of
more than 53 bits stand at one place of it.

* `Value.IsNumber`      integers, and floats that are numbers;
* `Value.rank`          where a number stands among the floats;
* `numberOrder_cases`   two numbers compare as integers or by their ranks;
* `numberOrder_trans`   what is less is passed on;
* `equal_trans`         what is equal is passed on, but for integers that are made one float.
-/

namespace PathQuery.Value

/-- integers, and floats that are numbers -/
inductive IsNumber : Value → Prop where
  | integer (n : ℤ) : IsNumber (integer n)
  | float {x : Float} : x.isNaN = false → IsNumber (float x)

def rank : Value → ℤ
  | integer n => Decimal.rank (Float.ofInt n)
  | float x => Decimal.rank x
  | _ => 0

theorem floatOrder_eq {x y : Float} (hx : x.isNaN = false) (hy : y.isNaN = false) :
    floatOrder? x y = some (compare (Decimal.rank x) (Decimal.rank y)) := by
  unfold floatOrder?
  simp only [Decimal.lt_iff hx hy, Decimal.lt_iff hy hx, Decimal.beq_iff hx hy]
  rcases lt_trichotomy (Decimal.rank x) (Decimal.rank y) with h | h | h
  · rw [if_pos h, compare_lt_iff_lt.mpr h]
  · rw [if_neg h.not_lt, if_pos h, compare_eq_iff_eq.mpr h]
  · rw [if_neg h.not_gt, if_neg h.ne', if_pos h, compare_gt_iff_gt.mpr h]

section
variable {u v w : Value}

/-- two integers compare as they are, and all other numbers by their ranks -/
theorem numberOrder_cases (hv : v.IsNumber) (hw : w.IsNumber) :
    (∃ m n, v = integer m ∧ w = integer n) ∨
      numberOrder? v w = some (compare v.rank w.rank) := by
  cases hv with
  | integer m =>
    cases hw with
    | integer n => exact .inl ⟨m, n, rfl, rfl⟩
    | float hy => exact .inr (floatOrder_eq (Decimal.isNaN_ofInt m) hy)
  | float hx =>
    cases hw with
    | integer n => exact .inr (floatOrder_eq hx (Decimal.isNaN_ofInt n))
    | float hy => exact .inr (floatOrder_eq hx hy)

theorem numberOrder_total (hv : v.IsNumber) (hw : w.IsNumber) :
    ∃ o, numberOrder? v w = some o := by
  obtain ⟨m, n, rfl, rfl⟩ | h := numberOrder_cases hv hw
  · exact ⟨_, rfl⟩
  · exact ⟨_, h⟩

theorem numberOrder_swap (hv : v.IsNumber) (hw : w.IsNumber) :
    numberOrder? w v = (numberOrder? v w).map Ordering.swap := by
  have integers (m n : ℤ) : some (compare n m) = (some (compare m n)).map Ordering.swap := by
    rw [Option.map_some, Int.compare_swap]
  obtain ⟨m, n, rfl, rfl⟩ | h := numberOrder_cases hv hw
  · exact integers m n
  · obtain ⟨n, m, rfl, rfl⟩ | h' := numberOrder_cases hw hv
    · exact integers m n
    · rw [h, h', integers]

theorem numberOrder_self (hv : v.IsNumber) : numberOrder? v v = some .eq := by
  obtain ⟨m, n, rfl, h⟩ | h := numberOrder_cases hv hv
  · cases h
    exact congrArg some (compare_eq_iff_eq.mpr rfl)
  · rw [h, compare_eq_iff_eq.mpr rfl]

theorem rank_le_of_lt (hv : v.IsNumber) (hw : w.IsNumber) (h : numberOrder? v w = some .lt) :
    v.rank ≤ w.rank := by
  obtain ⟨m, n, rfl, rfl⟩ | hrank := numberOrder_cases hv hw
  · exact Decimal.rank_ofInt_mono (compare_lt_iff_lt.mp (Option.some.inj h)).le
  · rw [hrank] at h
    exact (compare_lt_iff_lt.mp (Option.some.inj h)).le

theorem rank_eq_of_eq (hv : v.IsNumber) (hw : w.IsNumber) (h : numberOrder? v w = some .eq) :
    v.rank = w.rank := by
  obtain ⟨m, n, rfl, rfl⟩ | hrank := numberOrder_cases hv hw
  · rw [compare_eq_iff_eq.mp (Option.some.inj h)]
  · rw [hrank] at h
    exact compare_eq_iff_eq.mp (Option.some.inj h)

theorem lt_of_rank_lt (hv : v.IsNumber) (hw : w.IsNumber) (h : v.rank < w.rank) :
    numberOrder? v w = some .lt := by
  obtain ⟨m, n, rfl, rfl⟩ | hrank := numberOrder_cases hv hw
  · have hlt : m < n := lt_of_not_ge fun hle => (Decimal.rank_ofInt_mono hle).not_gt h
    exact congrArg some (compare_lt_iff_lt.mpr hlt)
  · rw [hrank, compare_lt_iff_lt.mpr h]

/-- **What is less is passed on**, from integers to floats and back. -/
theorem numberOrder_trans (hu : u.IsNumber) (hv : v.IsNumber) (hw : w.IsNumber)
    (huv : numberOrder? u v = some .lt) (hvw : numberOrder? v w = some .lt) :
    numberOrder? u w = some .lt := by
  have h1 := rank_le_of_lt hu hv huv
  have h2 := rank_le_of_lt hv hw hvw
  rcases (h1.trans h2).lt_or_eq with hlt | heq
  · exact lt_of_rank_lt hu hw hlt
  · -- all three stand at one place, where only integers are less than others
    obtain ⟨l, m, rfl, rfl⟩ | hrank := numberOrder_cases hu hv
    · obtain ⟨m', n, h, rfl⟩ | hrank := numberOrder_cases hv hw
      · cases h
        have hlm : l < m := compare_lt_iff_lt.mp (Option.some.inj huv)
        have hmn : m < n := compare_lt_iff_lt.mp (Option.some.inj hvw)
        exact congrArg some (compare_lt_iff_lt.mpr (hlm.trans hmn))
      · rw [hrank] at hvw
        have := compare_lt_iff_lt.mp (Option.some.inj hvw)
        omega
    · rw [hrank] at huv
      have := compare_lt_iff_lt.mp (Option.some.inj huv)
      omega

/-! ## equality -/

theorem equal_iff_order (hv : v.IsNumber) (hw : w.IsNumber) :
    Comparison.equal.holds v w = true ↔ numberOrder? v w = some .eq := by
  cases hv <;> cases hw <;> exact beq_iff_eq

/-- **What is equal is passed on, but for integers that are made one float.** Where it is not passed
on, two integers that are not equal are compared through a float, and one of them has more than 53
bits. -/
theorem equal_trans {a b c : Value} (ha : a.IsNumber) (hb : b.IsNumber) (hc : c.IsNumber)
    (hab : Comparison.equal.holds a b = true) (hbc : Comparison.equal.holds b c = true) :
    (Comparison.equal.holds a c = false ↔ ∃ m n, a = integer m ∧ c = integer n ∧ m ≠ n) ∧
    ∀ m n, a = integer m → c = integer n → m ≠ n →
      (∃ y, b = float y) ∧ 2 ^ 53 < max m.natAbs n.natAbs := by
  rw [equal_iff_order ha hb] at hab
  rw [equal_iff_order hb hc] at hbc
  have hrank : a.rank = c.rank := (rank_eq_of_eq ha hb hab).trans (rank_eq_of_eq hb hc hbc)
  constructor
  · rw [← Bool.not_eq_true, equal_iff_order ha hc]
    obtain ⟨m, n, rfl, rfl⟩ | horder := numberOrder_cases ha hc
    · show ¬some (compare m n) = some .eq ↔ _
      rw [Option.some.injEq, compare_eq_iff_eq]
      refine ⟨fun hne => ⟨m, n, rfl, rfl, hne⟩, ?_⟩
      rintro ⟨m', n', hm, hn, hne⟩
      cases hm
      cases hn
      exact hne
    · rw [horder, compare_eq_iff_eq.mpr hrank]
      refine ⟨fun hne => absurd rfl hne, ?_⟩
      rintro ⟨m, n, rfl, rfl, hne⟩
      have heq : compare m n = compare (integer m).rank (integer n).rank := Option.some.inj horder
      rw [compare_eq_iff_eq.mpr hrank, compare_eq_iff_eq] at heq
      exact absurd heq hne
  · rintro m n rfl rfl hne
    constructor
    · cases hb with
      | integer k =>
        have hmk : m = k := compare_eq_iff_eq.mp (Option.some.inj hab)
        have hkn : k = n := compare_eq_iff_eq.mp (Option.some.inj hbc)
        exact absurd (hmk.trans hkn) hne
      | float hy => exact ⟨_, rfl⟩
    · by_contra hsmall
      obtain ⟨hm, hn⟩ := max_le_iff.mp (not_lt.mp hsmall)
      rcases hne.lt_or_gt with hlt | hgt
      · exact (Decimal.rank_ofInt_strict hlt hm hn).ne hrank
      · exact (Decimal.rank_ofInt_strict hgt hn hm).ne' hrank

end

/-- the first integer that is no float, with the float that it becomes and that float's integer -/
theorem equal_trans_rounded :
    let a := integer (2 ^ 53 + 1)
    let b := float (Float.ofInt (2 ^ 53))
    let c := integer (2 ^ 53)
    Comparison.equal.holds a b = true ∧ Comparison.equal.holds b c = true ∧
      Comparison.equal.holds a c = false := by
  intro a b c
  have hab : Comparison.equal.holds a b = true := by decide +kernel
  have hbc : Comparison.equal.holds b c = true := by decide +kernel
  exact ⟨hab, hbc, (equal_trans (.integer _) (.float (Decimal.isNaN_ofInt _)) (.integer _) hab
    hbc).1.mpr ⟨_, _, rfl, rfl, by decide⟩⟩

end PathQuery.Value
