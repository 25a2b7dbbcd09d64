import PathQuery.Proofs.Decimal.Rounding

/-!
# The search for the shortest decimal

A grid `10 ^ k` is asked for a multiple that rounds to a float, the coarser grids first.

* `onGrid_near`     what a grid gives is near the float;
* `onGrid_hit`      a grid at least as fine as a quarter of the float's unit has a hit;
* `shortest_near`   such a grid is among those that are tried.
-/

namespace PathQuery.Decimal

/-! ## grids -/

theorem pow_toNat {b : ℚ} (hb : b ≠ 0) (z : ℤ) : b ^ z.toNat = b ^ z * b ^ (-z).toNat := by
  rw [← zpow_natCast, ← zpow_natCast, ← zpow_add₀ hb]
  congr 1
  omega

/-- a unit and a grid brought to whole numbers, as the search has them -/
theorem up_mul_grid (e k : ℤ) :
    ((Nat.pow 2 (e - 2).toNat * Nat.pow 10 (-k).toNat : ℕ) : ℚ) * 10 ^ k
      = (Nat.pow 2 (2 - e).toNat * Nat.pow 10 k.toNat : ℕ) * 2 ^ (e - 2) := by
  have h2 := pow_toNat (two_ne_zero (α := ℚ)) (e - 2)
  have h10 := pow_toNat (show (10 : ℚ) ≠ 0 by norm_num) k
  rw [show -(e - 2) = 2 - e by ring] at h2
  rw [Nat.pow_eq, Nat.pow_eq, Nat.pow_eq, Nat.pow_eq]
  push_cast
  rw [h2, h10]
  ring

/-- whether a multiple of `10 ^ k` rounds to `m · 2 ^ e`, in whole numbers -/
def insideGrid (m : ℕ) (e k : ℤ) (d : ℕ) : Bool :=
  let up := Nat.pow 2 (e - 2).toNat * Nat.pow 10 (-k).toNat
  let den := Nat.pow 2 (2 - e).toNat * Nat.pow 10 k.toNat
  let low := (4 * m - reach m e) * up
  let high := (4 * m + 2) * up
  if m % 2 = 0 then low ≤ d * den && d * den ≤ high else low < d * den && d * den < high

theorem reach_le_four_mul {m : ℕ} (hm : 0 < m) (e : ℤ) : reach m e ≤ 4 * m - 2 := by
  have h : reach m e ≤ 2 := by exact_mod_cast reach_le m e
  omega

theorem insideGrid_near {m d : ℕ} {e k : ℤ} (hm : 0 < m) (h : insideGrid m e k d = true) :
    0 < d ∧ Near m e (d * 10 ^ k) := by
  have hgrid := up_mul_grid e k
  have hup : 0 < Nat.pow 2 (e - 2).toNat * Nat.pow 10 (-k).toNat :=
    Nat.mul_pos (Nat.two_pow_pos _) (Nat.pow_pos (by norm_num))
  have hden : 0 < Nat.pow 2 (2 - e).toNat * Nat.pow 10 k.toNat :=
    Nat.mul_pos (Nat.two_pow_pos _) (Nat.pow_pos (by norm_num))
  unfold insideGrid at h
  generalize Nat.pow 2 (e - 2).toNat * Nat.pow 10 (-k).toNat = up at *
  generalize Nat.pow 2 (2 - e).toNat * Nat.pow 10 k.toNat = den at *
  have hden' : (0 : ℚ) < den := by exact_mod_cast hden
  have hk : (0 : ℚ) < 10 ^ k := by positivity
  have hr := reach_le_four_mul hm e
  have hcast : ((4 * m - reach m e : ℕ) : ℚ) = 4 * m - reach m e := by
    rw [Nat.cast_sub (by omega)]
    push_cast
    rfl
  -- a comparison of whole numbers is one of quarters of the unit
  have hleft (a : ℚ) : a * up * 10 ^ k = a * 2 ^ (e - 2) * den := by
    rw [mul_assoc, hgrid]
    ring
  have hright (b : ℚ) : b * den * 10 ^ k = b * 10 ^ k * den := by ring
  have le_iff (a b : ℚ) : a * up ≤ b * den ↔ a * 2 ^ (e - 2) ≤ b * 10 ^ k := by
    rw [← mul_le_mul_iff_left₀ hk, hleft, hright, mul_le_mul_iff_left₀ hden']
  have ge_iff (a b : ℚ) : b * den ≤ a * up ↔ b * 10 ^ k ≤ a * 2 ^ (e - 2) := by
    rw [← mul_le_mul_iff_left₀ hk, hleft, hright, mul_le_mul_iff_left₀ hden']
  have hlow : 0 < (4 * m - reach m e) * up := Nat.mul_pos (by omega) hup
  have hpos : (4 * m - reach m e) * up ≤ d * den → 0 < d := by
    intro hle
    exact Nat.pos_of_mul_pos_right (hlow.trans_le hle)
  by_cases hodd : m % 2 = 0
  · rw [if_pos hodd, Bool.and_eq_true, decide_eq_true_iff, decide_eq_true_iff] at h
    obtain ⟨h1, h2⟩ := h
    refine ⟨hpos h1, ?_, ?_, by omega⟩
    · rw [← le_iff, ← hcast]
      exact_mod_cast h1
    · rw [← ge_iff]
      exact_mod_cast h2
  · rw [if_neg hodd, Bool.and_eq_true, decide_eq_true_iff, decide_eq_true_iff] at h
    obtain ⟨h1, h2⟩ := h
    have h3 : (4 * m - reach m e : ℚ) * 2 ^ (e - 2) < d * 10 ^ k := by
      rw [← not_le, ← ge_iff, not_le, ← hcast]
      exact_mod_cast h1
    have h4 : (d * 10 ^ k : ℚ) < (4 * m + 2) * 2 ^ (e - 2) := by
      rw [← not_le, ← le_iff, not_le]
      exact_mod_cast h2
    exact ⟨hpos h1.le, h3.le, h4.le, fun _ => ⟨h3, h4⟩⟩

theorem onGrid_inside {tie : Tie} {m d : ℕ} {e k : ℤ} (h : onGrid? tie m e k = some d) :
    insideGrid m e k d = true := by
  unfold onGrid? at h
  change (if insideGrid m e k _ && insideGrid m e k _ then _
    else if insideGrid m e k _ then _ else if insideGrid m e k _ then _ else _) = _ at h
  split at h
  · rename_i hboth
    rw [Bool.and_eq_true] at hboth
    obtain ⟨h1, h2⟩ := hboth
    cases h
    split
    · exact h1
    · exact h2
  · split at h
    · rename_i h1
      cases h
      exact h1
    · split at h
      · rename_i h2
        cases h
        exact h2
      · cases h

theorem onGrid_near {tie : Tie} {m d : ℕ} {e k : ℤ} (hm : 0 < m) (h : onGrid? tie m e k = some d) :
    0 < d ∧ Near m e (d * 10 ^ k) :=
  insideGrid_near hm (onGrid_inside h)

/-- a grid that is fine enough has a hit: the first multiple above the float -/
theorem onGrid_hit (tie : Tie) {m : ℕ} {e k : ℤ} (h : (10 : ℚ) ^ k ≤ 2 ^ (e - 2)) :
    (onGrid? tie m e k).isSome = true := by
  have hgrid := up_mul_grid e k
  have hden : 0 < Nat.pow 2 (2 - e).toNat * Nat.pow 10 k.toNat :=
    Nat.mul_pos (Nat.two_pow_pos _) (Nat.pow_pos (by norm_num))
  have hup : 0 < Nat.pow 2 (e - 2).toNat * Nat.pow 10 (-k).toNat :=
    Nat.mul_pos (Nat.two_pow_pos _) (Nat.pow_pos (by norm_num))
  have hinside : insideGrid m e k
      (4 * m * (Nat.pow 2 (e - 2).toNat * Nat.pow 10 (-k).toNat)
        / (Nat.pow 2 (2 - e).toNat * Nat.pow 10 k.toNat) + 1) = true := by
    unfold insideGrid
    generalize Nat.pow 2 (e - 2).toNat * Nat.pow 10 (-k).toNat = up at *
    generalize Nat.pow 2 (2 - e).toNat * Nat.pow 10 k.toNat = den at *
    have hle : den ≤ up := by
      have hk : (0 : ℚ) < 10 ^ k := by positivity
      have : (den : ℚ) ≤ up := by
        rw [← mul_le_mul_iff_left₀ hk, hgrid]
        exact mul_le_mul_of_nonneg_left h (Nat.cast_nonneg _)
      exact_mod_cast this
    have h1 : 4 * m * up < (4 * m * up / den + 1) * den := by
      rw [Nat.mul_comm _ den]
      exact Nat.lt_mul_div_succ _ hden
    have h2 : (4 * m * up / den + 1) * den ≤ 4 * m * up + den := by
      rw [Nat.add_mul, one_mul]
      exact Nat.add_le_add_right (Nat.div_mul_le_self _ _) _
    have hlow : (4 * m - reach m e) * up ≤ 4 * m * up := Nat.mul_le_mul_right _ (Nat.sub_le _ _)
    have hhigh : (4 * m + 2) * up = 4 * m * up + 2 * up := Nat.add_mul _ _ _
    dsimp only
    split <;> simp only [Bool.and_eq_true, decide_eq_true_iff] <;> constructor <;> omega
  unfold onGrid?
  change Option.isSome (if insideGrid m e k _ && insideGrid m e k _ then _
    else if insideGrid m e k _ then _ else if insideGrid m e k _ then _ else _) = true
  split
  · rfl
  · split
    · rfl
    · rfl

/-! ## the search -/

theorem grid_le_unit {k e : ℤ} (hpos : 0 ≤ k → 10 * k ≤ 3 * e) (hneg : e < 0 → 102 * k ≤ 31 * e) :
    (10 : ℚ) ^ k ≤ 2 ^ e := by
  rcases le_or_gt 0 k with hk | hk
  · have hke := hpos hk
    obtain ⟨a, rfl⟩ := Int.eq_ofNat_of_zero_le hk
    obtain ⟨b, rfl⟩ := Int.eq_ofNat_of_zero_le (show 0 ≤ e by omega)
    rw [zpow_natCast, zpow_natCast]
    exact_mod_cast ten_pow_le_two_pow (a := a) (b := b) (by omega)
  · rcases le_or_gt 0 e with he | he
    · exact (zpow_le_one_of_nonpos₀ (by norm_num) hk.le).trans (one_le_zpow₀ one_le_two he)
    · have hke := hneg he
      obtain ⟨a, ha⟩ := Int.eq_ofNat_of_zero_le (show 0 ≤ -k by omega)
      obtain ⟨b, hb⟩ := Int.eq_ofNat_of_zero_le (show 0 ≤ -e by omega)
      rw [show k = -(a : ℤ) by omega, show e = -(b : ℤ) by omega, zpow_neg, zpow_neg, zpow_natCast,
        zpow_natCast, inv_le_inv₀ (by positivity) (by positivity)]
      exact_mod_cast two_pow_le_ten_pow (a := b) (b := a) (by omega)

/-- a search that comes to a fine grid in time gives what rounds to the float -/
theorem firstGrid_near (tie : Tie) {m : ℕ} {e : ℤ} (hm : 0 < m) {tries : ℕ} {k : ℤ}
    (h : ∃ j : ℕ, j < tries ∧ (10 : ℚ) ^ (k - j) ≤ 2 ^ (e - 2)) :
    0 < (firstGrid tie m e tries k).digits ∧
      Near m e ((firstGrid tie m e tries k).digits * 10 ^ (firstGrid tie m e tries k).exponent) := by
  induction tries generalizing k with
  | zero =>
    obtain ⟨j, hj, _⟩ := h
    omega
  | succ tries ih =>
    obtain ⟨j, hj, hfine⟩ := h
    unfold firstGrid
    cases hgrid : onGrid? tie m e k with
    | some d => exact onGrid_near hm hgrid
    | none =>
      cases j with
      | zero =>
        have := onGrid_hit (m := m) tie (by simpa using hfine)
        rw [hgrid] at this
        cases this
      | succ j =>
        refine ih ⟨j, by omega, ?_⟩
        rwa [show k - 1 - (j : ℤ) = k - (j + 1 : ℕ) by push_cast; ring]

/-- **The shortest decimal of a float is read back as it.** -/
theorem shortest_near (tie : Tie) {m : ℕ} {e : ℤ} (c : Canonical m e) :
    0 < (shortest tie m e).digits ∧
      Near m e ((shortest tie m e).digits * 10 ^ (shortest tie m e).exponent) := by
  have hlog : m.log2 < 53 := (Nat.log2_lt c.pos.ne').mpr c.small
  have hleast := c.least
  have hgreatest := c.greatest
  refine firstGrid_near tie c.pos ⟨23, by norm_num, grid_le_unit ?_ ?_⟩
  · intro _
    push_cast
    omega
  · intro _
    push_cast
    omega

end PathQuery.Decimal
