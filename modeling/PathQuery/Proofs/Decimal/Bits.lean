import PathQuery.Proofs.Decimal.Rounding

/-!
# The bits of floats

A float is kept as 64 bits: a sign, an exponent and a mantissa whose leading one is left out.
Putting a positive or negative float together and taking it apart again changes nothing, and
`parts` takes apart what `Canonical.float` puts together.
-/

namespace PathQuery.Decimal
open Float.Model Float.Model.UnpackedFloat

def signOf (negative : Bool) : Sign := if negative then .negative else .positive

theorem toNat_packComponents (s : Sign) (e : BitVec 11) (m : BitVec 52) :
    (packComponents Format.binary64 s e m).toNat
      = s.toBitVec.toNat * 2 ^ 63 + e.toNat * leastMantissa + m.toNat := by
  show ((s.toBitVec ++ e) ++ m).toNat = _
  rw [BitVec.toNat_append, BitVec.toNat_append, ← Nat.shiftLeft_add_eq_or_of_lt m.isLt,
    ← Nat.shiftLeft_add_eq_or_of_lt e.isLt]
  rw [Nat.shiftLeft_eq, Nat.shiftLeft_eq]
  show (_ * 2 ^ 11 + _) * 2 ^ 52 + _ = _
  norm_num [leastMantissa]
  ring

theorem pack_normal {m : ℕ} {e : ℤ} (c : Canonical m e) (s : Sign) (h : leastMantissa ≤ m) :
    UnpackedFloat.pack Format.binary64 (.finite s m e c.pos)
      = packComponents Format.binary64 s (BitVec.ofNat 11 (e + 1075).toNat) (BitVec.ofNat 52 m) := by
  have hlog : m.log2 = 52 := by
    have h1 : m.log2 < 53 := (Nat.log2_lt c.pos.ne').mpr c.small
    have h2 : 52 ≤ m.log2 := (Nat.le_log2 c.pos.ne').mpr h
    omega
  have hleast := c.least
  have hgreatest := c.greatest
  have hbias : e + (Format.binary64.exponentBias : ℕ) + (52 : ℕ) = e + 1075 := by
    norm_num [Format.exponentBias]
    ring
  unfold UnpackedFloat.pack
  dsimp only
  rw [hbias, if_neg (by norm_num; omega), if_pos (by rw [hlog]; rfl)]

theorem pack_denormal {m : ℕ} {e : ℤ} (c : Canonical m e) (s : Sign) (h : m < leastMantissa) :
    UnpackedFloat.pack Format.binary64 (.finite s m e c.pos)
      = packComponents Format.binary64 s 0#11 (BitVec.ofNat 52 m) := by
  have hlog : m.log2 < 52 := (Nat.log2_lt c.pos.ne').mpr h
  have he := c.normal.resolve_left (by omega)
  have hbias : e + (Format.binary64.exponentBias : ℕ) + (52 : ℕ) = e + 1075 := by
    norm_num [Format.exponentBias]
    ring
  unfold UnpackedFloat.pack
  dsimp only
  rw [hbias, if_neg (by norm_num; omega), if_neg (by norm_num [Format.mantissaBits]; omega)]

theorem Canonical.toNat_pack {m : ℕ} {e : ℤ} (c : Canonical m e) (s : Sign) :
    (UnpackedFloat.pack Format.binary64 (.finite s m e c.pos)).toNat
      = s.toBitVec.toNat * 2 ^ 63 + (e + 1074).toNat * leastMantissa + m := by
  have hsmall := c.small
  have hleast := c.least
  have hgreatest := c.greatest
  by_cases h : leastMantissa ≤ m
  · rw [pack_normal c s h, toNat_packComponents, BitVec.toNat_ofNat, BitVec.toNat_ofNat,
      Nat.mod_eq_of_lt (by omega : (e + 1075).toNat < 2 ^ 11)]
    have h1 : m % 2 ^ 52 = m - leastMantissa := by
      norm_num [leastMantissa] at h hsmall ⊢
      omega
    have h2 : (e + 1075).toNat = (e + 1074).toNat + 1 := by omega
    rw [h1, h2]
    norm_num [leastMantissa] at h ⊢
    omega
  · have he := c.normal.resolve_left h
    rw [pack_denormal c s (not_le.mp h), toNat_packComponents, BitVec.toNat_ofNat (x := m),
      Nat.mod_eq_of_lt (show m < 2 ^ 52 from not_le.mp h), he]
    rfl

theorem unpackSign_packComponents (s : Sign) (e : BitVec 11) (m : BitVec 52) :
    Sign.ofBitVec (unpackSign (packComponents Format.binary64 s e m)) = s := by
  have hlow : e.toNat * leastMantissa + m.toNat < 2 ^ 63 := by
    have h1 := e.isLt
    have h2 := m.isLt
    norm_num [leastMantissa] at h1 h2 ⊢
    omega
  have h : (unpackSign (packComponents Format.binary64 s e m)).toNat = s.toBitVec.toNat := by
    show ((packComponents Format.binary64 s e m).toNat >>> 63) % 2 ^ 1 = _
    rw [toNat_packComponents, Nat.add_assoc, Nat.shiftRight_eq_div_pow, Nat.mul_comm,
      Nat.mul_add_div (by norm_num), Nat.div_eq_of_lt hlow, Nat.add_zero]
    exact Nat.mod_eq_of_lt s.toBitVec.isLt
  rw [BitVec.eq_of_toNat_eq h]
  cases s <;> rfl

theorem finite_congr {s : Sign} {m m' : ℕ} {e e' : ℤ} {h : 0 < m} {h' : 0 < m'} (hm : m = m')
    (he : e = e') : UnpackedFloat.finite s m e h = .finite s m' e' h' := by
  subst hm
  subst he
  rfl

theorem unpack_normal (s : Sign) (e : BitVec 11) (m : BitVec 52) (h1 : e ≠ -1#11) (h0 : e ≠ 0#11) :
    UnpackedFloat.unpack Format.binary64 (packComponents Format.binary64 s e m)
      = .finite s (leastMantissa + m.toNat) ((e.toNat : ℤ) - 1075)
          (Nat.add_pos_left (by decide) _) := by
  simp only [UnpackedFloat.unpack, unpackExponent_packComponents, unpackMantissa_packComponents,
    unpackSign_packComponents, h1, h0, ↓reduceIte]
  refine finite_congr ?_ rfl
  rw [BitVec.toNat_append, ← Nat.shiftLeft_add_eq_or_of_lt m.isLt]
  rfl

theorem unpack_denormal (s : Sign) (m : BitVec 52) (h : 0 < m.toNat) :
    UnpackedFloat.unpack Format.binary64 (packComponents Format.binary64 s 0#11 m)
      = .finite s m.toNat (-1074) h := by
  have hm : m ≠ 0#52 := fun e => by rw [e] at h; exact absurd h (by decide)
  have h1 : 0#11 ≠ -1#11 := by decide
  simp only [UnpackedFloat.unpack, unpackExponent_packComponents, unpackMantissa_packComponents,
    unpackSign_packComponents, h1, hm, ↓reduceIte, ↓reduceDIte]
  exact finite_congr rfl rfl

theorem Canonical.unpack_pack {m : ℕ} {e : ℤ} (c : Canonical m e) (s : Sign) :
    (Float.Model.pack (.finite s m e c.pos)).unpack = .finite s m e c.pos := by
  have hsmall := c.small
  have hleast := c.least
  have hgreatest := c.greatest
  show UnpackedFloat.unpack Format.binary64 (UnpackedFloat.pack Format.binary64 (.finite s m e c.pos)) = _
  by_cases h : leastMantissa ≤ m
  · have hexp : (BitVec.ofNat 11 (e + 1075).toNat).toNat = (e + 1075).toNat := by
      rw [BitVec.toNat_ofNat, Nat.mod_eq_of_lt (by omega)]
    have hman : (BitVec.ofNat 52 m).toNat = m - leastMantissa := by
      rw [BitVec.toNat_ofNat]
      norm_num [leastMantissa] at h hsmall ⊢
      omega
    have hne (b : BitVec 11) (hb : b.toNat = 0 ∨ b.toNat = 2047) :
        BitVec.ofNat 11 (e + 1075).toNat ≠ b := by
      intro h
      rw [h] at hexp
      omega
    rw [pack_normal c s h, unpack_normal s _ _ (hne _ (.inr rfl)) (hne _ (.inl rfl))]
    exact finite_congr (by omega) (by omega)
  · have he := c.normal.resolve_left h
    have hman : (BitVec.ofNat 52 m).toNat = m := by
      rw [BitVec.toNat_ofNat, Nat.mod_eq_of_lt (show m < 2 ^ 52 from not_le.mp h)]
    rw [pack_denormal c s (not_le.mp h), unpack_denormal s _ (by rw [hman]; exact c.pos)]
    exact finite_congr hman he.symm


/-! ## bits -/

theorem bits_of_parts {x : Float} {negative : Bool} {m : ℕ} {e : ℤ}
    (h : parts x = .finite negative m e) :
    x.toBits.toNat = (signOf negative).toBitVec.toNat * 2 ^ 63 + (e + 1074).toNat * leastMantissa + m
      ∧ m < 2 * leastMantissa ∧ -1074 ≤ e ∧ e ≤ 971 ∧ (leastMantissa ≤ m ∨ e = -1074) := by
  have hn : x.toBits.toNat < 2 ^ 64 := x.toBits.toNat_lt
  unfold parts at h
  generalize x.toBits.toNat = n at *
  dsimp only at h
  have hsign : (signOf (n / leastMantissa / 2048 == 1)).toBitVec.toNat = n / leastMantissa / 2048 := by
    have : n / leastMantissa / 2048 < 2 := by
      norm_num [leastMantissa] at hn ⊢
      omega
    generalize n / leastMantissa / 2048 = b at *
    rcases (by omega : b = 0 ∨ b = 1) with h | h <;> rw [h] <;> rfl
  split at h
  · split at h <;> cases h
  · split at h
    · rename_i h1 h0
      cases h
      rw [hsign]
      norm_num [leastMantissa] at h0 h1 hn ⊢
      omega
    · rename_i h1 h0
      cases h
      rw [hsign]
      norm_num [leastMantissa] at h0 h1 hn ⊢
      omega

theorem toModel_injective {x y : Float} (h : x.toBits.toNat = y.toBits.toNat) : x = y := by
  obtain ⟨⟨a, ha⟩⟩ := x
  obtain ⟨⟨b, hb⟩⟩ := y
  have : a = b := UInt64.toNat_inj.mp h
  subst this
  rfl

/-- the positive float or the negative one of a mantissa and an exponent -/
def Canonical.float {m : ℕ} {e : ℤ} (c : Canonical m e) (negative : Bool) : Float :=
  .ofModel (.pack (.finite (signOf negative) m e c.pos))

theorem Canonical.of_parts {x : Float} {negative : Bool} {m : ℕ} {e : ℤ}
    (h : parts x = .finite negative m e) (hm : 0 < m) : Canonical m e := by
  obtain ⟨_, h1, h2, h3, h4⟩ := bits_of_parts h
  exact ⟨hm, h1, h2, h3, h4⟩

theorem float_of_parts {x : Float} {negative : Bool} {m : ℕ} {e : ℤ}
    (h : parts x = .finite negative m e) (hm : 0 < m) :
    x = (Canonical.of_parts h hm).float negative := by
  apply toModel_injective
  rw [(bits_of_parts h).1]
  exact ((Canonical.of_parts h hm).toNat_pack (signOf negative)).symm

theorem zero_of_parts {x : Float} {negative : Bool} {e : ℤ} (h : parts x = .finite negative 0 e) :
    x = if negative then -0.0 else 0.0 := by
  have hb := bits_of_parts h
  have he : e = -1074 := hb.2.2.2.2.resolve_left (by decide)
  apply toModel_injective
  rw [hb.1, he]
  cases negative <;> rfl

theorem Canonical.neg_float {m : ℕ} {e : ℤ} (c : Canonical m e) : -c.float false = c.float true := by
  show Float.ofModel (.pack (Float.Model.unpack (.pack _)).neg) = _
  rw [c.unpack_pack]
  rfl

end PathQuery.Decimal
