import PathQuery.Proofs.Token.Lexemes

/-!
# The spellings of a text

Between quotes, a character is spelt by itself, by a backslash and one character, by its code, or
by the codes of its surrogate pair. What stands between quotes is read as a text if and only if it
spells the characters of that text one after the other; where it goes wrong, nothing is read.

* `SpellsChar`, `SpellsText`   the spellings of a character, and those of a text;
* `Broken`                     what no spelling and no closing quote begins with;
* `closed_or_broken`           what stands behind a quote is spelt and closed, or goes wrong;
* `readText_spelled`           spellings are read as what they spell;
* `readText_broken`            what is broken is an error;
* `lex_quoted`                 all this for whole texts.
-/

namespace PathQuery.Token

/-! ## spellings -/

def IsQuote (c : Char) : Prop := c = '\'' ∨ c = '"'

/-- a digit in either case, at the place of its value -/
def IsHexDigit (c : Char) (v : ℕ) : Prop :=
  "0123456789abcdef".toList[v]? = some c ∨ "0123456789ABCDEF".toList[v]? = some c

instance (c : Char) (v : ℕ) : Decidable (IsHexDigit c v) :=
  inferInstanceAs (Decidable (_ ∨ _))

/-- four digits, the most significant first, and their value -/
def IsCode (ds : List Char) (n : ℕ) : Prop :=
  ds.length = 4 ∧ ∃ vs, List.Forall₂ IsHexDigit ds vs ∧ n = Nat.ofDigits 16 vs.reverse

/-- what may stand behind a backslash, and the character that is meant -/
def shortEscapes : List (Char × Char) :=
  [('"', '"'), ('\'', '\''), ('\\', '\\'), ('/', '/'), ('b', '\x08'), ('f', '\x0c'), ('n', '\n'),
    ('r', '\r'), ('t', '\t')]

/-- the halves of the surrogate pair of a character beyond 0xffff -/
def highHalf (n : ℕ) : ℕ := 0xd800 + (n - 0x10000) / 1024
def lowHalf (n : ℕ) : ℕ := 0xdc00 + (n - 0x10000) % 1024

/-- what stands behind the first letter `u` of an escape by code -/
inductive SpellsCode : List Char → Char → Prop
  | single {ds : List Char} {c : Char} (hds : IsCode ds c.toNat) : SpellsCode ds c
  | pair {ds ds' : List Char} {c : Char} (hc : 0x10000 ≤ c.toNat)
      (hds : IsCode ds (highHalf c.toNat)) (hds' : IsCode ds' (lowHalf c.toNat)) :
      SpellsCode (ds ++ '\\' :: 'u' :: ds') c

/-- the spellings of a character between such quotes -/
inductive SpellsChar (quote : Char) : List Char → Char → Prop
  | self {c : Char} (hquote : c ≠ quote) (hc : c ≠ '\\') : SpellsChar quote [c] c
  | short {e c : Char} (he : (e, c) ∈ shortEscapes) : SpellsChar quote ['\\', e] c
  | code {ds : List Char} {c : Char} (hds : SpellsCode ds c) :
      SpellsChar quote ('\\' :: 'u' :: ds) c

inductive SpellsText (quote : Char) : List Char → List Char → Prop
  | nil : SpellsText quote [] []
  | cons {part body : List Char} {c : Char} {cs : List Char} (hc : SpellsChar quote part c)
      (hcs : SpellsText quote body cs) : SpellsText quote (part ++ body) (c :: cs)

/-- what goes wrong behind the first letter `u` of an escape by code: there are no four digits,
the low surrogate comes first, or no low surrogate comes after the high one -/
inductive BrokenCode : List Char → Prop
  | digits {rest : List Char} (h : ∀ ds n, IsCode ds n → ¬ds <+: rest) : BrokenCode rest
  | low {ds : List Char} {n : ℕ} (hds : IsCode ds n) (hn : 0xdc00 ≤ n ∧ n ≤ 0xdfff)
      (rest : List Char) : BrokenCode (ds ++ rest)
  | high {ds rest : List Char} {n : ℕ} (hds : IsCode ds n) (hn : 0xd800 ≤ n ∧ n ≤ 0xdbff)
      (h : ∀ ds' n', IsCode ds' n' → 0xdc00 ≤ n' ∧ n' ≤ 0xdfff → ¬('\\' :: 'u' :: ds' <+: rest)) :
      BrokenCode (ds ++ rest)

/-- what goes wrong between quotes: the text ends, or an escape is none -/
inductive Broken : List Char → Prop
  | ended : Broken []
  | endedEscape : Broken ['\\']
  | escape {e : Char} (hu : e ≠ 'u') (he : ∀ c, (e, c) ∉ shortEscapes) (rest : List Char) :
      Broken ('\\' :: e :: rest)
  | code {rest : List Char} (h : BrokenCode rest) : Broken ('\\' :: 'u' :: rest)

/-! ## escapes of one character -/

theorem shortEscape?_eq_some {e c : Char} : shortEscape? e = some c ↔ (e, c) ∈ shortEscapes := by
  have hrow : ∀ r ∈ shortEscapes, shortEscape? r.1 = some r.2 := by decide
  refine ⟨fun h => ?_, hrow (e, c)⟩
  unfold shortEscape? at h
  split_ifs at h with hself <;> cases h
  · rcases hself with rfl | rfl | rfl | rfl <;> decide
  all_goals
    subst e
    decide

/-! ## digits and codes -/

theorem hexValue?_lt {c : Char} {v : ℕ} (h : hexValue? c = some v) : c.toNat < 103 := by
  unfold hexValue? at h
  simp only [Char.le_def, UInt32.le_iff_toNat_le, Char.toNat_val] at h
  have hf : 'f'.toNat = 102 := rfl
  have hF : 'F'.toNat = 70 := rfl
  split_ifs at h with hdigit hlower hupper
  · have hbounds := isDigit_bounds hdigit
    omega
  · omega
  · omega

theorem hexValue?_eq_some {c : Char} {v : ℕ} : hexValue? c = some v ↔ IsHexDigit c v := by
  constructor
  · have hdigit : ∀ n < 103, ∀ v ∈ hexValue? (Char.ofNat n), IsHexDigit (Char.ofNat n) v := by
      decide
    intro h
    have hc := hdigit c.toNat (hexValue?_lt h)
    rw [Char.ofNat_toNat] at hc
    exact hc v h
  · have hvalue : ∀ v < 16, "0123456789abcdef".toList[v]?.bind hexValue? = some v ∧
        "0123456789ABCDEF".toList[v]?.bind hexValue? = some v := by decide
    rintro (h | h)
    · have hv := (hvalue v (List.getElem?_eq_some_iff.mp h).1).1
      rwa [h] at hv
    · have hv := (hvalue v (List.getElem?_eq_some_iff.mp h).1).2
      rwa [h] at hv

theorem IsHexDigit.lt {c : Char} {v : ℕ} (h : IsHexDigit c v) : v < 16 := by
  rcases h with h | h <;> exact (List.getElem?_eq_some_iff.mp h).1

theorem IsCode.lt {ds : List Char} {n : ℕ} (h : IsCode ds n) : n < 65536 := by
  obtain ⟨hlength, vs, hvs, rfl⟩ := h
  have hdigits : ∀ v ∈ vs, v < 16 := by
    clear hlength
    induction hvs with
    | nil => exact List.forall_mem_nil _
    | cons hv _ ih => exact List.forall_mem_cons.mpr ⟨hv.lt, ih⟩
  have hlt := Nat.ofDigits_lt_base_pow_length (by decide : 1 < 16)
    fun v hv => hdigits v (List.mem_reverse.mp hv)
  rwa [List.length_reverse, ← hvs.length_eq, hlength] at hlt

theorem readHex_digits {part : List Char} {vs : List ℕ} (h : List.Forall₂ IsHexDigit part vs)
    (u offset value : ℕ) (tail : List Char) :
    readHex u part.length offset value (part ++ tail)
      = .ok (vs.foldl (fun n v => v + 16 * n) value) := by
  induction h generalizing offset value with
  | nil => rfl
  | cons hv _ ih =>
    rw [List.cons_append, List.length_cons, readHex, hexValue?_eq_some.mpr hv]
    dsimp only
    rw [ih, List.foldl_cons, Nat.add_comm]

theorem exists_digits_of_readHex {u count offset value n : ℕ} {ds : List Char}
    (h : readHex u count offset value ds = .ok n) : ∃ part tail vs, ds = part ++ tail ∧
      part.length = count ∧ List.Forall₂ IsHexDigit part vs ∧
      n = vs.foldl (fun n v => v + 16 * n) value := by
  induction count generalizing offset value ds with
  | zero =>
    rw [readHex] at h
    cases h
    exact ⟨[], ds, [], rfl, rfl, .nil, rfl⟩
  | succ count ih =>
    cases ds with
    | nil => cases h
    | cons d ds =>
      rw [readHex] at h
      cases hd : hexValue? d with
      | none =>
        rw [hd] at h
        cases h
      | some v =>
        rw [hd] at h
        obtain ⟨part, tail, vs, rfl, hlength, hvs, hn⟩ := ih h
        refine ⟨d :: part, tail, v :: vs, rfl, congrArg (· + 1) hlength,
          .cons (hexValue?_eq_some.mp hd) hvs, ?_⟩
        rw [hn, List.foldl_cons, Nat.add_comm]

theorem readHex_four {u offset n : ℕ} {ds : List Char} :
    readHex u 4 offset 0 ds = .ok n ↔ ∃ part tail, ds = part ++ tail ∧ IsCode part n := by
  have hvalue (vs : List ℕ) :
      vs.foldl (fun n v => v + 16 * n) 0 = Nat.ofDigits 16 vs.reverse := by
    rw [Nat.ofDigits_eq_foldr, List.foldr_reverse]
    rfl
  constructor
  · intro h
    obtain ⟨part, tail, vs, hds, hlength, hvs, hn⟩ := exists_digits_of_readHex h
    exact ⟨part, tail, hds, hlength, vs, hvs, hn.trans (hvalue vs)⟩
  · rintro ⟨part, tail, rfl, hlength, vs, hvs, rfl⟩
    rw [← hlength, readHex_digits hvs, hvalue]

theorem readHex_code {ds : List Char} {n : ℕ} (h : IsCode ds n) (u offset : ℕ) (rest : List Char) :
    readHex u 4 offset 0 (ds ++ rest) = .ok n :=
  readHex_four.mpr ⟨ds, rest, rfl, h⟩

theorem readHex_error {u offset : ℕ} {ds : List Char} :
    (∃ flaw, readHex u 4 offset 0 ds = .error flaw) ↔ ∀ part n, IsCode part n → ¬part <+: ds := by
  constructor
  · rintro ⟨flaw, hflaw⟩ part n hpart ⟨tail, rfl⟩
    rw [readHex_code hpart] at hflaw
    cases hflaw
  · intro h
    cases hread : readHex u 4 offset 0 ds with
    | error flaw => exact ⟨flaw, rfl⟩
    | ok n =>
      obtain ⟨part, tail, rfl, hpart⟩ := readHex_four.mp hread
      exact absurd (List.prefix_append part tail) (h part n hpart)

/-! ## escapes by code -/

theorem isHighSurrogate_iff {n : ℕ} : isHighSurrogate n = true ↔ 0xd800 ≤ n ∧ n ≤ 0xdbff := by
  rw [isHighSurrogate, Bool.and_eq_true, decide_eq_true_eq, decide_eq_true_eq]

theorem isLowSurrogate_iff {n : ℕ} : isLowSurrogate n = true ↔ 0xdc00 ≤ n ∧ n ≤ 0xdfff := by
  rw [isLowSurrogate, Bool.and_eq_true, decide_eq_true_eq, decide_eq_true_eq]

theorem toNat_bounds (c : Char) : c.toNat < 0xd800 ∨ 0xdfff < c.toNat ∧ c.toNat < 0x110000 :=
  c.valid

theorem toNat_ofNat {n : ℕ} (h : n < 0xd800 ∨ 0xdfff < n ∧ n < 0x110000) :
    (Char.ofNat n).toNat = n := by
  rw [Char.toNat_ofNat, if_pos h]

theorem highHalf_bounds {c : Char} (hc : 0x10000 ≤ c.toNat) :
    0xd800 ≤ highHalf c.toNat ∧ highHalf c.toNat ≤ 0xdbff := by
  have hvalid := toNat_bounds c
  rw [highHalf]
  omega

theorem lowHalf_bounds (n : ℕ) : 0xdc00 ≤ lowHalf n ∧ lowHalf n ≤ 0xdfff := by
  rw [lowHalf]
  omega

theorem ofSurrogates_halves {c : Char} (hc : 0x10000 ≤ c.toNat) :
    ofSurrogates (highHalf c.toNat) (lowHalf c.toNat) = c := by
  rw [ofSurrogates, highHalf, lowHalf, Nat.add_sub_cancel_left, Nat.add_sub_cancel_left]
  have hsum : 0x10000 + (c.toNat - 0x10000) / 1024 * 1024 + (c.toNat - 0x10000) % 1024
      = c.toNat := by omega
  rw [hsum, Char.ofNat_toNat]

theorem halves_ofSurrogates {high low : ℕ} (hhigh : 0xd800 ≤ high ∧ high ≤ 0xdbff)
    (hlow : 0xdc00 ≤ low ∧ low ≤ 0xdfff) :
    0x10000 ≤ (ofSurrogates high low).toNat ∧ highHalf (ofSurrogates high low).toNat = high ∧
      lowHalf (ofSurrogates high low).toNat = low := by
  have hcode : (ofSurrogates high low).toNat
      = 0x10000 + (high - 0xd800) * 1024 + (low - 0xdc00) := toNat_ofNat (by omega)
  rw [hcode, highHalf, lowHalf]
  omega

theorem readCode_spelled {ds : List Char} {c : Char} (h : SpellsCode ds c) (start : ℕ)
    (rest : List Char) : readCode start (ds ++ rest) = .ok (c, ds.length + 1) := by
  cases h with
  | single hds =>
    have hvalid := toNat_bounds c
    have hlow : ¬isLowSurrogate c.toNat = true := by
      rw [isLowSurrogate_iff]
      omega
    have hhigh : ¬isHighSurrogate c.toNat = true := by
      rw [isHighSurrogate_iff]
      omega
    rw [readCode, readHex_code hds]
    dsimp only
    rw [if_neg hlow, if_neg hhigh, Char.ofNat_toNat, hds.1]
  | @pair ds ds' _ hc hds hds' =>
    have hhigh := highHalf_bounds hc
    have hlow : ¬isLowSurrogate (highHalf c.toNat) = true := by
      rw [isLowSurrogate_iff]
      omega
    have hdrop (tail : List Char) : (ds ++ tail).drop 4 = tail := by rw [← hds.1, List.drop_left]
    rw [List.append_assoc, readCode, readHex_code hds]
    dsimp only
    rw [if_neg hlow, if_pos (isHighSurrogate_iff.mpr hhigh), hdrop]
    simp only [List.cons_append, readHex_code hds', isLowSurrogate_iff.mpr (lowHalf_bounds _),
      if_true, ofSurrogates_halves hc]
    rw [List.length_append, List.length_cons, List.length_cons, hds.1, hds'.1]

theorem readCode_broken {digits : List Char} (h : BrokenCode digits) (start : ℕ) :
    ∃ flaw, readCode start digits = .error flaw := by
  cases h with
  | digits h =>
    obtain ⟨flaw, hflaw⟩ := readHex_error.mpr h
    rw [readCode, hflaw]
    exact ⟨flaw, rfl⟩
  | low hds hn rest =>
    rw [readCode, readHex_code hds]
    dsimp only
    rw [if_pos (isLowSurrogate_iff.mpr hn)]
    exact ⟨_, rfl⟩
  | @high ds rest n hds hn h =>
    have hlow : ¬isLowSurrogate n = true := by
      rw [isLowSurrogate_iff]
      omega
    have hdrop : (ds ++ rest).drop 4 = rest := by rw [← hds.1, List.drop_left]
    rw [readCode, readHex_code hds]
    dsimp only
    rw [if_neg hlow, if_pos (isHighSurrogate_iff.mpr hn), hdrop]
    split
    · rename_i digits
      split
      · exact ⟨_, rfl⟩
      · rename_i low hread
        obtain ⟨ds', tail, rfl, hds'⟩ := readHex_four.mp hread
        rw [if_neg fun hlow' => ?_]
        · exact ⟨_, rfl⟩
        · exact h ds' low hds' (isLowSurrogate_iff.mp hlow') (List.prefix_append _ tail)
    · exact ⟨_, rfl⟩

theorem spellsCode_or_broken (digits : List Char) :
    (∃ ds tail c, digits = ds ++ tail ∧ SpellsCode ds c) ∨ BrokenCode digits := by
  by_cases hdigits : ∃ ds n, IsCode ds n ∧ ds <+: digits
  · obtain ⟨ds, n, hds, tail, rfl⟩ := hdigits
    by_cases hlow : 0xdc00 ≤ n ∧ n ≤ 0xdfff
    · exact .inr (.low hds hlow tail)
    by_cases hhigh : 0xd800 ≤ n ∧ n ≤ 0xdbff
    · by_cases hpair : ∃ ds' n', IsCode ds' n' ∧ (0xdc00 ≤ n' ∧ n' ≤ 0xdfff) ∧
          '\\' :: 'u' :: ds' <+: tail
      · obtain ⟨ds', n', hds', hlow', tail, rfl⟩ := hpair
        obtain ⟨hc, hhalf, hhalf'⟩ := halves_ofSurrogates hhigh hlow'
        refine .inl ⟨_, tail, ofSurrogates n n', (List.append_assoc _ _ _).symm, .pair hc ?_ ?_⟩
        · rwa [hhalf]
        · rwa [hhalf']
      · exact .inr (.high hds hhigh fun ds' n' hds' hlow' hpre =>
          hpair ⟨ds', n', hds', hlow', hpre⟩)
    · have hlt := hds.lt
      have hcode : (Char.ofNat n).toNat = n := toNat_ofNat (by omega)
      exact .inl ⟨ds, tail, Char.ofNat n, rfl, .single (by rwa [hcode])⟩
  · exact .inr (.digits fun ds n hds hpre => hdigits ⟨ds, n, hds, hpre⟩)

/-! ## characters -/

section

variable {quote : Char}

theorem SpellsChar.ne_nil {part : List Char} {c : Char} (h : SpellsChar quote part c) :
    part ≠ [] := by
  cases h <;> exact List.cons_ne_nil _ _

theorem SpellsChar.cons {part : List Char} {c : Char} (h : SpellsChar quote part c)
    (hquote : quote ≠ '\\') : ∃ d more, part = d :: more ∧ d ≠ quote := by
  cases h with
  | self hne _ => exact ⟨c, [], rfl, hne⟩
  | short _ => exact ⟨'\\', _, rfl, hquote.symm⟩
  | code _ => exact ⟨'\\', _, rfl, hquote.symm⟩

theorem readSpelling_spelled {d c : Char} {more : List Char} (h : SpellsChar quote (d :: more) c)
    (offset : ℕ) (rest : List Char) :
    readSpelling quote offset d (more ++ rest) = .ok (c, more.length) := by
  cases h with
  | self _ hc =>
    simp only [readSpelling, if_neg hc]
    rfl
  | short he =>
    simp only [readSpelling, if_true, List.cons_append, shortEscape?_eq_some.mpr he]
    rfl
  | code hds =>
    have hshort : shortEscape? 'u' = none := rfl
    simp only [readSpelling, if_true, List.cons_append, hshort, readCode_spelled hds,
      List.length_cons]

theorem readSpelling_broken {c : Char} {rest : List Char} (h : Broken (c :: rest)) (offset : ℕ) :
    c = '\\' ∧ ∃ flaw, readSpelling quote offset c rest = .error flaw := by
  cases h with
  | endedEscape => exact ⟨rfl, _, rfl⟩
  | @escape e hu he rest =>
    have hshort : shortEscape? e = none :=
      Option.eq_none_iff_forall_ne_some.mpr fun c hc => he c (shortEscape?_eq_some.mp hc)
    refine ⟨rfl, ⟨.unknownEscape, e, offset + 1⟩, ?_⟩
    simp only [readSpelling, if_true, hshort, if_neg hu]
  | code h =>
    obtain ⟨flaw, hflaw⟩ := readCode_broken h offset
    exact ⟨rfl, flaw, hflaw⟩

/-- what is not the closing quote is the beginning of a spelling or broken -/
theorem spellsChar_or_broken {c : Char} (hc : c ≠ quote) (rest : List Char) :
    (∃ part tail d, c :: rest = part ++ tail ∧ SpellsChar quote part d) ∨ Broken (c :: rest) := by
  by_cases hslash : c = '\\'
  · subst hslash
    cases rest with
    | nil => exact .inr .endedEscape
    | cons e rest =>
      by_cases hu : e = 'u'
      · subst hu
        rcases spellsCode_or_broken rest with ⟨ds, tail, d, rfl, hds⟩ | hbroken
        · exact .inl ⟨_, tail, d, rfl, .code hds⟩
        · exact .inr (.code hbroken)
      by_cases he : ∃ d, (e, d) ∈ shortEscapes
      · obtain ⟨d, hd⟩ := he
        exact .inl ⟨_, rest, d, rfl, .short hd⟩
      · exact .inr (.escape hu (not_exists.mp he) rest)
  · exact .inl ⟨[c], rest, c, rfl, .self hc hslash⟩

/-! ## texts -/

/-- **What stands behind a quote is a text and the closing quote, or it goes wrong.** -/
theorem closed_or_broken (quote : Char) (rest : List Char) :
    (∃ body tail cs, rest = body ++ quote :: tail ∧ SpellsText quote body cs) ∨
    ∃ body tail cs, rest = body ++ tail ∧ SpellsText quote body cs ∧ Broken tail := by
  induction hn : rest.length using Nat.strong_induction_on generalizing rest with
  | h n ih =>
    subst hn
    cases rest with
    | nil => exact .inr ⟨[], [], [], rfl, .nil, .ended⟩
    | cons c rest =>
      by_cases hc : c = quote
      · subst hc
        exact .inl ⟨[], rest, [], rfl, .nil⟩
      rcases spellsChar_or_broken hc rest with ⟨part, tail, d, heq, hd⟩ | hbroken
      · have hlt : tail.length < (c :: rest).length := by
          have hpos := List.length_pos_iff.mpr hd.ne_nil
          rw [heq, List.length_append]
          omega
        rw [heq]
        rcases ih _ hlt tail rfl with ⟨body, tail, cs, rfl, hcs⟩ | ⟨body, tail, cs, rfl, hcs, h⟩
        · exact .inl ⟨part ++ body, tail, d :: cs, (List.append_assoc _ _ _).symm, .cons hd hcs⟩
        · exact .inr ⟨part ++ body, tail, d :: cs, (List.append_assoc _ _ _).symm, .cons hd hcs, h⟩
      · exact .inr ⟨[], c :: rest, [], rfl, .nil, hbroken⟩

theorem readText_body {body cs : List Char} (h : SpellsText quote body cs)
    (hquote : quote ≠ '\\') (offset : ℕ) (rest : List Char) :
    readText quote offset (body ++ rest)
      = (fun r => (cs ++ r.1, r.2)) <$> readText quote (offset + body.length) rest := by
  induction h generalizing offset with
  | nil => exact (id_map _).symm
  | @cons part body c cs hc _ ih =>
    obtain ⟨d, more, rfl, hd⟩ := hc.cons hquote
    rw [List.append_assoc, List.cons_append,
      Strict.readText_spelling hd rfl (readSpelling_spelled hc offset (body ++ rest)), ih,
      List.length_append, List.length_cons,
      show offset + 1 + more.length + body.length = offset + (more.length + 1 + body.length) by
        omega]
    cases readText quote (offset + (more.length + 1 + body.length)) rest <;> rfl

theorem readText_spelled {body cs : List Char} (h : SpellsText quote body cs)
    (hquote : quote ≠ '\\') (offset : ℕ) (rest : List Char) :
    readText quote offset (body ++ quote :: rest) = .ok (cs, offset + body.length) := by
  rw [readText_body h hquote, readText, if_pos rfl]
  show Except.ok (cs ++ [], _) = _
  rw [List.append_nil]

theorem readText_broken {body cs tail : List Char} (h : SpellsText quote body cs)
    (hquote : quote ≠ '\\') (hbroken : Broken tail) (offset : ℕ) :
    ∃ flaw, readText quote offset (body ++ tail) = .error flaw := by
  rw [readText_body h hquote]
  cases tail with
  | nil =>
    rw [readText]
    exact ⟨_, rfl⟩
  | cons c tail =>
    obtain ⟨rfl, flaw, hflaw⟩ := readSpelling_broken hbroken (offset + body.length)
    rw [Strict.readText_flaw hquote.symm hflaw]
    exact ⟨flaw, rfl⟩

theorem readText_eq_ok (hquote : quote ≠ '\\') {offset close : ℕ} {rest cs : List Char} :
    readText quote offset rest = .ok (cs, close) ↔ ∃ body tail,
      rest = body ++ quote :: tail ∧ SpellsText quote body cs ∧ close = offset + body.length := by
  constructor
  · intro h
    rcases closed_or_broken quote rest with ⟨body, tail, cs', rfl, hcs⟩ |
      ⟨body, tail, cs', rfl, hcs, hbroken⟩
    · rw [readText_spelled hcs hquote] at h
      cases h
      exact ⟨body, tail, rfl, hcs, rfl⟩
    · obtain ⟨flaw, hflaw⟩ := readText_broken hcs hquote hbroken offset
      rw [hflaw] at h
      cases h
  · rintro ⟨body, tail, rfl, hcs, rfl⟩
    exact readText_spelled hcs hquote offset tail

end

/-! ## tokens -/

theorem IsQuote.ne_backslash {quote : Char} (h : IsQuote quote) : quote ≠ '\\' := by
  rcases h with rfl | rfl <;> decide

theorem IsQuote.not_separator {quote : Char} (h : IsQuote quote) : isSeparator quote = false := by
  rcases h with rfl | rfl <;> rfl

theorem scanWord_ne_text (c : Char) (rest : List Char) (s : String) :
    (scanWord c rest).kind ≠ .text s := by
  have hkeyword (word : String) : keyword? word ≠ some (.text s) := by
    unfold keyword?
    split_ifs <;> nofun
  unfold scanWord
  dsimp only
  cases hword : keyword? (String.ofList (c :: rest.takeWhile isNamePart)) with
  | some kind =>
    rintro rfl
    exact hkeyword _ hword
  | none => nofun

theorem scanNumber_ne_text (c : Char) (rest : List Char) (s : String) (n : ℕ) :
    scanNumber c rest ≠ .ok ⟨.text s, n⟩ := by
  unfold scanNumber
  generalize Decimal.splitSign (c :: rest) = parts
  obtain ⟨negative, body⟩ := parts
  dsimp only
  generalize (if negative = true then ['-'] else []) = sign
  intro h
  split at h
  · cases h
  split at h
  · cases h
  split at h
  · split at h <;> cases h
  · split at h
    · split at h <;> cases h
    · cases h

theorem scanOperator_ne_text (c : Char) (next : Option Char) (s : String) (n : ℕ) :
    scanOperator c next ≠ .ok ⟨.text s, n⟩ := by
  unfold scanOperator
  split_ifs <;> nofun

theorem scanDots_ne_text (rest : List Char) (s : String) (n : ℕ) :
    scanDots rest ≠ .ok ⟨.text s, n⟩ := by
  unfold scanDots
  split <;> nofun

theorem punctuation?_ne_text (c : Char) (s : String) : punctuation? c ≠ some (.text s) := by
  unfold punctuation?
  split_ifs <;> nofun

theorem isQuote_of_scan {c : Char} {rest : List Char} {s : String} {n : ℕ}
    (h : scan c rest = .ok ⟨.text s, n⟩) : IsQuote c := by
  have hword : (.ok (scanWord c rest) : Except Flaw Lexeme) ≠ .ok ⟨.text s, n⟩ :=
    fun h => scanWord_ne_text c rest s (congrArg Lexeme.kind (Except.ok.inj h))
  unfold scan at h
  split_ifs at h with hquote hnumber hoperator hroot hgoes hdot hstart
  · exact hquote
  · exact absurd h (scanNumber_ne_text c rest s n)
  · exact absurd h (scanOperator_ne_text c rest.head? s n)
  · exact absurd h hword
  · cases h
  · exact absurd h (scanDots_ne_text rest s n)
  · split at h
    · rename_i kind hkind
      cases h
      exact absurd hkind (punctuation?_ne_text c s)
    · exact absurd h hword
  · split at h
    · rename_i kind hkind
      cases h
      exact absurd hkind (punctuation?_ne_text c s)
    · cases h

theorem scan_text {c : Char} {rest : List Char} {s : String} {n : ℕ} :
    scan c rest = .ok ⟨.text s, n⟩ ↔ IsQuote c ∧ ∃ body tail, rest = body ++ c :: tail ∧
      SpellsText c body s.toList ∧ n = body.length + 1 := by
  have hscan (hc : IsQuote c) : scan c rest = scanText c rest := if_pos hc
  constructor
  · intro h
    have hc := isQuote_of_scan h
    rw [hscan hc, scanText] at h
    cases hread : readText c 1 rest with
    | error flaw =>
      rw [hread] at h
      cases h
    | ok r =>
      obtain ⟨cs, close⟩ := r
      rw [hread] at h
      cases h
      obtain ⟨body, tail, hrest, hcs, hclose⟩ := (readText_eq_ok hc.ne_backslash).mp hread
      refine ⟨hc, body, tail, hrest, ?_, hclose.trans (Nat.add_comm 1 _)⟩
      rwa [String.toList_ofList]
  · rintro ⟨hc, body, tail, rfl, hcs, rfl⟩
    rw [hscan hc, scanText, readText_spelled hcs hc.ne_backslash]
    dsimp only
    rw [String.ofList_toList, Nat.add_comm]

theorem scan_broken {quote : Char} (hquote : IsQuote quote) {body cs tail : List Char}
    (h : SpellsText quote body cs) (hbroken : Broken tail) :
    ∃ flaw, scan quote (body ++ tail) = .error flaw := by
  have hscan : scan quote (body ++ tail) = scanText quote (body ++ tail) := if_pos hquote
  obtain ⟨flaw, hflaw⟩ := readText_broken h hquote.ne_backslash hbroken 1
  rw [hscan, scanText, hflaw]
  exact ⟨flaw, rfl⟩

theorem Cut.mem {pieces : List Piece} {finish : List Char} (h : Cut pieces finish) {position : ℕ}
    {t : Token} (ht : t ∈ tokensAt position pieces finish) (hne : t.kind ≠ .eof) :
    ∃ before c rest n, spread pieces finish = before ++ c :: rest ∧
      t.position = position + before.length ∧ scan c rest = .ok ⟨t.kind, n⟩ := by
  induction pieces generalizing position with
  | nil =>
    rw [List.mem_singleton.mp ht] at hne
    exact absurd rfl hne
  | cons p ps ih =>
    obtain ⟨-, ⟨c, more, hlexeme, -, hscan⟩, hrest⟩ := h
    rw [spread_cons]
    rcases List.mem_cons.mp ht with rfl | ht
    · refine ⟨p.gap, c, more ++ spread ps finish, more.length, ?_, rfl, hscan⟩
      rw [hlexeme, List.cons_append]
    · obtain ⟨before, c', rest, n, hspread, hposition, hscan'⟩ := ih hrest ht
      refine ⟨p.gap ++ (p.lexeme ++ before), c', rest, n, ?_, ?_, hscan'⟩
      · rw [hspread, List.append_assoc, List.append_assoc]
      · rw [hposition, List.length_append, List.length_append]
        omega

theorem exists_spellsCode (c : Char) : ∃ ds, SpellsCode ds c := by
  have hcode {n : ℕ} (hn : n < 65536) : IsCode (Text.hex4 n) n := by
    obtain ⟨part, tail, hdigits, hpart⟩ := readHex_four.mp (readHex_hex4 0 0 hn [])
    obtain ⟨rfl, -⟩ := List.append_inj hdigits (hpart.1.symm)
    exact hpart
  by_cases hc : c.toNat < 0x10000
  · exact ⟨_, .single (hcode hc)⟩
  · have hc' := Nat.le_of_not_lt hc
    have hhigh := highHalf_bounds hc'
    have hlow := lowHalf_bounds c.toNat
    exact ⟨_, .pair hc' (hcode (by omega)) (hcode (by omega))⟩

theorem exists_spellsText (quote : Char) (cs : List Char) : ∃ body, SpellsText quote body cs := by
  induction cs with
  | nil => exact ⟨[], .nil⟩
  | cons c cs ih =>
    obtain ⟨ds, hds⟩ := exists_spellsCode c
    obtain ⟨body, hbody⟩ := ih
    exact ⟨_, .cons (.code hds) hbody⟩

section

variable {quote : Char} {before body behind : List Char} {s : String}

/-- a quoted text as it stands between white space -/
def quotedPiece (before : List Char) (quote : Char) (body : List Char) (s : String) : Piece :=
  ⟨before, quote :: (body ++ [quote]), .text s⟩

theorem spread_quotedPiece : spread [quotedPiece before quote body s] behind
    = before ++ quote :: (body ++ quote :: behind) := by
  rw [spread_cons, List.append_cons body]
  rfl

theorem cut_quotedPiece (hquote : IsQuote quote) (hbefore : IsBlank before)
    (hbehind : IsBlank behind) (hbody : SpellsText quote body s.toList) :
    Cut [quotedPiece before quote body s] behind := by
  refine ⟨hbefore, ⟨quote, body ++ [quote], rfl, hquote.not_separator, ?_⟩, hbehind⟩
  exact scan_text.mpr ⟨hquote, body, behind, (List.append_cons body quote behind).symm, hbody,
    List.length_append⟩

theorem eq_quotedPiece {p : Piece} (hp : p.kind = .text s) (h : Cut [p] behind) :
    ∃ quote body, IsQuote quote ∧ SpellsText quote body s.toList ∧
      p = quotedPiece p.gap quote body s := by
  obtain ⟨before, lexeme, kind⟩ := p
  obtain rfl : kind = .text s := hp
  obtain ⟨-, ⟨quote, more, rfl, -, hscan⟩, -⟩ := h
  obtain ⟨hquote, body, tail, hrest, hbody, hmore⟩ := scan_text.mp hscan
  rw [List.append_cons body] at hrest
  have hlength : more.length = (body ++ [quote]).length := by
    rw [hmore, List.length_append, List.length_singleton]
  obtain ⟨rfl, -⟩ := List.append_inj hrest hlength
  exact ⟨quote, body, hquote, hbody, rfl⟩

end

theorem lex_quoted_iff {text s : String} {position finish : ℕ} :
    lex text = .ok [⟨.text s, position⟩, ⟨.eof, finish⟩] ↔ ∃ before quote body behind,
      IsQuote quote ∧ IsBlank before ∧ IsBlank behind ∧ SpellsText quote body s.toList ∧
      text.toList = before ++ quote :: (body ++ quote :: behind) ∧ position = before.length ∧
      finish = text.length := by
  -- the end stands behind the last character
  have hend (p : Piece) (behind : List Char) (htext : text.toList = spread [p] behind) :
      tokensAt 0 [p] behind = [⟨p.kind, p.gap.length⟩, ⟨.eof, text.length⟩] := by
    have hlast := getLast_tokensAt 0 [p] behind
    rw [← htext, Nat.zero_add, String.length_toList] at hlast
    obtain ⟨-, hlength⟩ := Token.mk.inj (Option.some.inj hlast)
    rw [tokensAt, tokensAt, hlength, Nat.zero_add]
  constructor
  · intro h
    obtain ⟨pieces, behind, htext, hcut, htokens⟩ := lexFrom_eq_ok.mp h
    have hlength := congrArg List.length htokens
    rw [length_tokensAt] at hlength
    obtain ⟨p, rfl⟩ := List.length_eq_one_iff.mp (Nat.succ.inj hlength).symm
    rw [hend p behind htext] at htokens
    obtain ⟨hhead, htail⟩ := List.cons.inj htokens
    obtain ⟨hkind, hposition⟩ := Token.mk.inj hhead
    obtain ⟨-, hfinish⟩ := Token.mk.inj (List.cons.inj htail).1
    obtain ⟨quote, body, hquote, hbody, hp⟩ := eq_quotedPiece hkind.symm hcut
    rw [hp, spread_quotedPiece] at htext
    exact ⟨p.gap, quote, body, behind, hquote, hcut.1, hcut.finish, hbody, htext, hposition,
      hfinish⟩
  · rintro ⟨before, quote, body, behind, hquote, hbefore, hbehind, hbody, htext, rfl, rfl⟩
    have hspread := htext.trans (spread_quotedPiece (s := s)).symm
    rw [lex, hspread, (cut_quotedPiece hquote hbefore hbehind hbody).lexFrom, hend _ _ hspread]
    rfl

/-- where a text is broken no text is read, and nothing is if there is only white space before -/
theorem lex_broken {text : String} {before body cs tail : List Char} {quote : Char}
    (hquote : IsQuote quote) (hbody : SpellsText quote body cs) (hbroken : Broken tail)
    (htext : text.toList = before ++ quote :: (body ++ tail)) :
    (∀ tokens s, lex text = .ok tokens → ⟨.text s, before.length⟩ ∉ tokens) ∧
      (IsBlank before → ∃ e, lex text = .error e ∧ e.IsLex) := by
  obtain ⟨flaw, hflaw⟩ := scan_broken hquote hbody hbroken
  constructor
  · intro tokens s h hmem
    obtain ⟨pieces, finish, hspread, hcut, rfl⟩ := lexFrom_eq_ok.mp h
    obtain ⟨before', c, rest, n, heq, hposition, hscan⟩ := hcut.mem hmem nofun
    rw [← hspread, htext] at heq
    rw [Nat.zero_add] at hposition
    obtain ⟨-, hrest⟩ := List.append_inj heq hposition
    obtain ⟨rfl, rfl⟩ := List.cons.inj hrest
    rw [hflaw] at hscan
    cases hscan
  · intro hbefore
    refine ⟨.lex flaw.fault flaw.character (before.length + flaw.offset), ?_, _, _, _, rfl⟩
    rw [lex, htext, lexFrom_blank hbefore, lexFrom,
      if_neg (Bool.eq_false_iff.mp hquote.not_separator), hflaw, Nat.zero_add]

/-- **A quoted text is read as what it spells.** A text is the only token in front of the end if
and only if, between white space, its characters are spelt in turn between two quotes of one kind.
Each text has a spelling; what is spelt and where it ends is settled by the characters behind the
first quote; and where these go wrong there is no token. -/
theorem lex_quoted :
    (∀ (text s : String) (position finish : ℕ),
      lex text = .ok [⟨.text s, position⟩, ⟨.eof, finish⟩] ↔ ∃ before quote body behind,
        IsQuote quote ∧ IsBlank before ∧ IsBlank behind ∧ SpellsText quote body s.toList ∧
        text.toList = before ++ quote :: (body ++ quote :: behind) ∧ position = before.length ∧
        finish = text.length) ∧
    (∀ (quote : Char) (s : String), ∃ body, SpellsText quote body s.toList) ∧
    (∀ quote body behind cs body' behind' cs', IsQuote quote → SpellsText quote body cs →
      SpellsText quote body' cs' → body ++ quote :: behind = body' ++ quote :: behind' →
        body = body' ∧ cs = cs' ∧ behind = behind') ∧
    (∀ (text : String) before quote body cs tail, IsQuote quote → SpellsText quote body cs →
      Broken tail → text.toList = before ++ quote :: (body ++ tail) →
        (∀ tokens s, lex text = .ok tokens → ⟨.text s, before.length⟩ ∉ tokens) ∧
        (IsBlank before → ∃ e, lex text = .error e ∧ e.IsLex)) := by
  refine ⟨fun text s position finish => lex_quoted_iff,
    fun quote s => exists_spellsText quote s.toList, ?_,
    fun text before quote body cs tail hquote hbody hbroken htext =>
      lex_broken hquote hbody hbroken htext⟩
  intro quote body behind cs body' behind' cs' hquote hcs hcs' heq
  have hread := readText_spelled hcs hquote.ne_backslash 0 behind
  rw [heq, readText_spelled hcs' hquote.ne_backslash] at hread
  obtain ⟨rfl, hlength⟩ := Prod.mk.inj (Except.ok.inj hread)
  obtain ⟨rfl, hbehind⟩ := List.append_inj heq (by omega)
  exact ⟨rfl, rfl, (List.cons.inj hbehind).2⟩

/-- a code, a surrogate pair in either case, a short escape and the other quote; a letter by its
code, in front of anything; and a pair in the wrong order -/
theorem lex_quoted_escapes :
    lex " '\\u00E9\\ud83d\\uDE00\\n\"' " = .ok [⟨.text "é😀\n\"", 1⟩, ⟨.eof, 25⟩] ∧
    (∀ body cs behind behind', SpellsText '"' body cs →
      body ++ '"' :: behind = "\\u0061".toList ++ '"' :: behind' → cs = ['a']) ∧
    ∃ e, lex "'b\\ude00\\ud83d'" = .error e ∧ e.IsLex := by
  obtain ⟨hread, -, hsettled, hbroken⟩ := lex_quoted
  have hhigh : IsCode "d83d".toList (highHalf '😀'.toNat) :=
    ⟨rfl, [13, 8, 3, 13], by decide, by decide⟩
  have hlow : IsCode "DE00".toList (lowHalf '😀'.toNat) :=
    ⟨rfl, [13, 14, 0, 0], by decide, by decide⟩
  have hlow' : IsCode "de00".toList 0xde00 := ⟨rfl, [13, 14, 0, 0], by decide, by decide⟩
  have hé : IsCode "00E9".toList 'é'.toNat := ⟨rfl, [0, 0, 14, 9], by decide, by decide⟩
  have ha : IsCode "0061".toList 'a'.toNat := ⟨rfl, [0, 0, 6, 1], by decide, by decide⟩
  have hblank : IsBlank [' '] := List.forall_mem_singleton.mpr rfl
  refine ⟨(hread _ _ 1 25).mpr ⟨[' '], '\'', "\\u00E9\\ud83d\\uDE00\\n\"".toList, [' '],
    .inl rfl, hblank, hblank, ?_, rfl, rfl, rfl⟩, ?_, ?_⟩
  · exact .cons (.code (.single hé)) (.cons (.code (.pair (by decide) hhigh hlow))
      (.cons (.short (by decide)) (.cons (.self (by decide) (by decide)) .nil)))
  · intro body cs behind behind' hcs heq
    exact (hsettled _ _ _ _ _ _ _ (.inr rfl) hcs (.cons (.code (.single ha)) .nil) heq).2.1
  · exact (hbroken _ [] '\'' ['b'] ['b'] "\\ude00\\ud83d'".toList (.inl rfl)
      (.cons (.self (by decide) (by decide)) .nil)
      (.code (.low hlow' (by decide) "\\ud83d'".toList)) rfl).2 isBlank_nil

end PathQuery.Token
