import PathQuery.Proofs.Decimal.Nearest
import PathQuery.Proofs.Decimal.Grid
import PathQuery.Decimal.Layout

/-!
# Literals read back

The digits of a number are those of its text, and the texts of literals stand for them.

* `intOfText_intChars`     the text of an integer is read as it;
* `literal_chars`          the text of a float: a sign, digits, a point and digits;
* `ofText_literal_chars`   that text is read as the float, of all finite floats.
-/

namespace PathQuery.Decimal

/-! ## digits -/

theorem natOfDigits_eq (ds : List Char) : natOfDigits ds = Nat.ofDigitChars 10 ds 0 := rfl

theorem natOfDigits_toDigits (n : ℕ) : natOfDigits (Nat.toDigits 10 n) = n :=
  Nat.ofDigitChars_ten_toDigits

theorem natOfDigits_append (ds es : List Char) :
    natOfDigits (ds ++ es) = natOfDigits ds * 10 ^ es.length + natOfDigits es := by
  rw [natOfDigits_eq, natOfDigits_eq, natOfDigits_eq, Nat.ofDigitChars_append,
    Nat.ofDigitChars_eq_ofDigitChars_zero, Nat.mul_comm]

theorem natOfDigits_replicate_zero (n : ℕ) : natOfDigits (List.replicate n '0') = 0 := by
  rw [natOfDigits_eq, Nat.ofDigitChars_replicate_zero, Nat.mul_zero]

theorem isDigit_of_mem_toDigits {n : ℕ} {c : Char} (h : c ∈ Nat.toDigits 10 n) :
    c.isDigit = true :=
  Nat.isDigit_of_mem_toDigits (by decide) (by decide) h

theorem splitSign_of_isDigit {c : Char} (h : c.isDigit = true) (rest : List Char) :
    splitSign (c :: rest) = (false, c :: rest) := by
  unfold splitSign
  split
  · rename_i e
    cases e
    cases h
  · rfl

theorem splitSign_signed {ds : List Char} (negative : Bool) (hne : ds ≠ [])
    (hd : ∀ c ∈ ds, c.isDigit = true) (rest : List Char) :
    splitSign ((if negative then ['-'] else []) ++ ds ++ rest) = (negative, ds ++ rest) := by
  cases negative with
  | true => rfl
  | false =>
    obtain ⟨c, cs, rfl⟩ := List.exists_cons_of_ne_nil hne
    exact splitSign_of_isDigit (hd c List.mem_cons_self) _

theorem intOfText_intChars (n : ℤ) : intOfText (intChars n) = n := by
  have hd : ∀ c ∈ Nat.toDigits 10 n.natAbs, c.isDigit = true := fun c => isDigit_of_mem_toDigits
  have h := splitSign_signed (decide (n < 0)) Nat.toDigits_ne_nil hd []
  rw [List.append_nil, List.append_nil] at h
  unfold intOfText intChars
  simp only [decide_eq_true_eq] at h
  rw [h]
  dsimp only
  rw [natOfDigits_toDigits]
  split <;> rename_i hn
  · rw [decide_eq_true_eq] at hn
    omega
  · rw [decide_eq_true_eq] at hn
    omega

/-! ## decimals -/

/-- the digits before and after the point, and the number that they stand for -/
structure Positional (cs : List Char) (q : ℚ) (whole fraction : List Char) : Prop where
  chars : cs = whole ++ '.' :: fraction
  whole_ne : whole ≠ []
  fraction_ne : fraction ≠ []
  whole_digits : ∀ c ∈ whole, c.isDigit = true
  fraction_digits : ∀ c ∈ fraction, c.isDigit = true
  value : (natOfDigits (whole ++ fraction) : ℚ) / 10 ^ fraction.length = q

theorem positional_value {k : ℕ} {e : ℤ} {n : ℕ} {v : ℕ} (h : (n : ℤ) + e = (v : ℤ)) :
    ((k * 10 ^ v : ℕ) : ℚ) / 10 ^ n = k * 10 ^ e := by
  have h10 : (10 : ℚ) ≠ 0 := by norm_num
  rw [div_eq_iff (pow_ne_zero _ h10), mul_assoc, ← zpow_natCast (10 : ℚ) n, ← zpow_add₀ h10,
    show e + (n : ℤ) = v by omega, zpow_natCast]
  push_cast
  rfl

theorem positionalText_positional (k : ℕ) (e : ℤ) :
    ∃ whole fraction, Positional (positionalText true (Nat.toDigits 10 k) e) (k * 10 ^ e)
      whole fraction := by
  have hdigits (c : Char) (h : c ∈ Nat.toDigits 10 k) : c.isDigit = true := isDigit_of_mem_toDigits h
  have hzeros (n : ℕ) (c : Char) (h : c ∈ List.replicate n '0') : c.isDigit = true := by
    rw [List.eq_of_mem_replicate h]
    rfl
  unfold positionalText
  by_cases he : 0 ≤ e
  · rw [if_pos he]
    refine ⟨Nat.toDigits 10 k ++ List.replicate e.toNat '0', ['0'], rfl, ?_, ?_, ?_, ?_, ?_⟩
    · intro h
      exact Nat.toDigits_ne_nil (List.append_eq_nil_iff.mp h).1
    · exact List.cons_ne_nil _ _
    · intro c hc
      exact (List.mem_append.mp hc).elim (hdigits c) (hzeros _ c)
    · intro c hc
      exact hzeros 1 c hc
    · have hz : List.replicate e.toNat '0' ++ ['0'] = List.replicate (e.toNat + 1) '0' :=
        List.replicate_succ'.symm
      rw [List.append_assoc, hz, natOfDigits_append, natOfDigits_toDigits,
        natOfDigits_replicate_zero, Nat.add_zero, List.length_replicate]
      exact positional_value (by simp only [List.length_singleton]; omega)
  · rw [if_neg he]
    obtain ⟨places, hplaces⟩ : ∃ n : ℕ, (n : ℤ) = -e := ⟨(-e).toNat, by omega⟩
    rw [show (-e).toNat = places by omega]
    have hvalue : ((k * 10 ^ 0 : ℕ) : ℚ) / 10 ^ places = k * 10 ^ e :=
      positional_value (by push_cast; omega)
    rw [pow_zero, Nat.mul_one] at hvalue
    dsimp only
    by_cases hlen : places < (Nat.toDigits 10 k).length
    · rw [if_pos hlen]
      refine ⟨_, _, rfl, ?_, ?_, ?_, ?_, ?_⟩
      · rw [← List.length_pos_iff, List.length_take]
        omega
      · rw [← List.length_pos_iff, List.length_drop]
        omega
      · intro c hc
        exact hdigits c (List.mem_of_mem_take hc)
      · intro c hc
        exact hdigits c (List.mem_of_mem_drop hc)
      · rw [List.take_append_drop, natOfDigits_toDigits, List.length_drop,
          show (Nat.toDigits 10 k).length - ((Nat.toDigits 10 k).length - places) = places by omega]
        exact hvalue
    · rw [if_neg hlen]
      refine ⟨['0'], List.replicate (places - (Nat.toDigits 10 k).length) '0' ++ Nat.toDigits 10 k,
        rfl, List.cons_ne_nil _ _, ?_, hzeros 1, ?_, ?_⟩
      · intro h
        exact Nat.toDigits_ne_nil (List.append_eq_nil_iff.mp h).2
      · intro c hc
        exact (List.mem_append.mp hc).elim (hzeros _ c) (hdigits c)
      · have hz : (['0'] : List Char) = List.replicate 1 '0' := rfl
        rw [← List.append_assoc, natOfDigits_append, natOfDigits_toDigits, hz,
          List.replicate_append_replicate, natOfDigits_replicate_zero, Nat.zero_mul, Nat.zero_add,
          List.length_append, List.length_replicate,
          show places - (Nat.toDigits 10 k).length + (Nat.toDigits 10 k).length = places by omega]
        exact hvalue

theorem spanDigits_append {ds rest : List Char} (hd : ∀ c ∈ ds, c.isDigit = true)
    (hr : ∀ c ∈ rest.head?, c.isDigit = false) : spanDigits (ds ++ rest) = (ds, rest) := by
  have h1 : rest.takeWhile Char.isDigit = [] := by
    cases rest with
    | nil => rfl
    | cons c cs => rw [List.takeWhile_cons, hr c rfl]; rfl
  have h2 : rest.dropWhile Char.isDigit = rest := by
    cases rest with
    | nil => rfl
    | cons c cs => rw [List.dropWhile_cons, hr c rfl]; rfl
  unfold spanDigits
  rw [List.takeWhile_append_of_pos hd, List.dropWhile_append_of_pos hd, h1, h2, List.append_nil]

theorem ofText_positional {cs whole fraction : List Char} {q : ℚ} (negative : Bool)
    (h : Positional cs q whole fraction) :
    ofText? ((if negative then ['-'] else []) ++ cs)
      = some (if negative then -nearest (natOfDigits (whole ++ fraction)) (-fraction.length)
        else nearest (natOfDigits (whole ++ fraction)) (-fraction.length)) := by
  have hsign := splitSign_signed negative h.whole_ne h.whole_digits ('.' :: fraction)
  rw [List.append_assoc, ← h.chars] at hsign
  have hwhole : spanDigits cs = (whole, '.' :: fraction) := by
    rw [h.chars]
    exact spanDigits_append h.whole_digits (by intro c hc; cases hc; rfl)
  have hfraction : spanDigits fraction = (fraction, []) := by
    have hnil : ∀ c ∈ ([] : List Char).head?, c.isDigit = false := fun c hc => nomatch hc
    have hspan := spanDigits_append h.fraction_digits hnil
    rwa [List.append_nil] at hspan
  have hne : (whole ++ fraction).isEmpty = false := by
    rw [List.isEmpty_eq_false_iff]
    intro e
    exact h.whole_ne (List.append_eq_nil_iff.mp e).1
  unfold ofText?
  rw [hsign]
  dsimp only
  rw [hwhole]
  simp only [hfraction]
  rw [hne, if_neg Bool.false_ne_true]
  show some (if negative = true then -nearest _ (0 - _) else nearest _ (0 - _)) = _
  rw [zero_sub]

/-- a finite float as a literal: a sign, digits around a point, and the float nearest to them -/
theorem literal_chars {x : Float} (h : isFinite x = true) :
    ∃ (negative : Bool) (q : ℚ) (whole fraction cs : List Char), Positional cs q whole fraction ∧
      Layout.literal.chars x = (if negative then ['-'] else []) ++ cs ∧
      x = (if negative then -nearest (natOfDigits (whole ++ fraction)) (-fraction.length)
        else nearest (natOfDigits (whole ++ fraction)) (-fraction.length)) := by
  cases hparts : parts x with
  | nan =>
    rw [isFinite, hparts] at h
    cases h
  | infinite negative =>
    rw [isFinite, hparts] at h
    cases h
  | finite negative m e =>
    have hchars : Layout.literal.chars x = (if negative then ['-'] else [])
        ++ Layout.literal.unsigned (if m = 0 then ⟨0, 0⟩ else shortest .away m e) := by
      unfold Layout.chars
      rw [hparts]
      rfl
    obtain ⟨d, hd⟩ : ∃ d, d = (if m = 0 then ⟨0, 0⟩ else shortest .away m e) := ⟨_, rfl⟩
    rw [← hd] at hchars
    obtain ⟨whole, fraction, hp⟩ := positionalText_positional d.digits d.exponent
    have hunsigned : Layout.literal.unsigned d
        = positionalText true (Nat.toDigits 10 d.digits) d.exponent := rfl
    rw [hunsigned] at hchars
    refine ⟨negative, _, whole, fraction, _, hp, hchars, ?_⟩
    have hlen : 0 < fraction.length := List.length_pos_iff.mpr hp.fraction_ne
    have hvalue := hp.value
    by_cases hm : m = 0
    · rw [if_pos hm] at hd
      subst hm hd
      have hzero : natOfDigits (whole ++ fraction) = 0 := by
        have h0 : ((0 : ℕ) : ℚ) * 10 ^ (0 : ℤ) = 0 := by norm_num
        rw [h0, div_eq_iff (by positivity), zero_mul] at hvalue
        exact_mod_cast hvalue
      have hnearest : nearest (natOfDigits (whole ++ fraction)) (-fraction.length) = 0.0 :=
        if_pos hzero
      rw [hnearest]
      exact zero_of_parts hparts
    · rw [if_neg hm] at hd
      have hpos := Nat.pos_of_ne_zero hm
      have c := Canonical.of_parts hparts hpos
      obtain ⟨hdigits, hnear⟩ := shortest_near .away c
      rw [← hd] at hdigits hnear
      rw [← hvalue] at hnear
      have hk : 0 < natOfDigits (whole ++ fraction) := by
        have h0 : (0 : ℚ) < d.digits := by exact_mod_cast hdigits
        have h1 : (0 : ℚ) < natOfDigits (whole ++ fraction) / 10 ^ fraction.length := by
          rw [hvalue]
          positivity
        rw [div_pos_iff_of_pos_right (by positivity)] at h1
        exact_mod_cast h1
      rw [c.nearest_of_near hk hlen hnear, float_of_parts hparts hpos]
      cases negative with
      | true => exact c.neg_float.symm
      | false => rfl

/-- **The text of a finite float is read as that float.** -/
theorem ofText_literal_chars {x : Float} (h : isFinite x = true) :
    ofText? (Layout.literal.chars x) = some x := by
  obtain ⟨negative, q, whole, fraction, cs, hp, hchars, hx⟩ := literal_chars h
  rw [hchars, ofText_positional negative hp, ← hx]

end PathQuery.Decimal
