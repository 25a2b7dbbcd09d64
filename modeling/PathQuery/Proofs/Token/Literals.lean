import PathQuery.Proofs.Token.Spelling

/-!
# The spelling of literals

* `readText_quoted`   what stands between quotes is read as the characters that it was written for;
* `spells_quoted`     a quoted text is one token;
* `spells_integer`, `spells_float`   so are the numbers.
-/

namespace PathQuery.Token

/-! ## quoted texts -/

theorem hexValue_hexDigit : ∀ d < 16, hexValue? (Text.hexDigit d) = some d := by decide

theorem readHex_hex4 (u offset : ℕ) {n : ℕ} (hn : n < 65536) (rest : List Char) :
    readHex u 4 offset 0 (Text.hex4 n ++ rest) = .ok n := by
  show readHex u 4 offset 0 (Text.hexDigit (n / 4096) :: Text.hexDigit (n / 256 % 16)
    :: Text.hexDigit (n / 16 % 16) :: Text.hexDigit (n % 16) :: rest) = _
  rw [readHex, hexValue_hexDigit (n / 4096) (by omega)]
  dsimp only
  rw [readHex, hexValue_hexDigit (n / 256 % 16) (by omega)]
  dsimp only
  rw [readHex, hexValue_hexDigit (n / 16 % 16) (by omega)]
  dsimp only
  rw [readHex, hexValue_hexDigit (n % 16) (by omega)]
  dsimp only
  rw [readHex]
  congr 1
  omega

theorem readCode_hex4 (start : ℕ) {c : Char} (hc : c.toNat < 0xd800) (rest : List Char) :
    readCode start (Text.hex4 c.toNat ++ rest) = .ok (c, 5) := by
  have hlow : ¬isLowSurrogate c.toNat = true := by
    rw [isLowSurrogate, Bool.and_eq_true, decide_eq_true_eq, decide_eq_true_eq]
    omega
  have hhigh : ¬isHighSurrogate c.toNat = true := by
    rw [isHighSurrogate, Bool.and_eq_true, decide_eq_true_eq, decide_eq_true_eq]
    omega
  rw [readCode, readHex_hex4 _ _ (by omega)]
  dsimp only
  rw [if_neg hlow, if_neg hhigh, Char.ofNat_toNat]

/-- the spelling of a character: itself, or a backslash with what it stands for -/
theorem readText_quoteChar {byCode : Char → Bool} (hcode : ∀ c, byCode c = true → c.toNat < 0xd800)
    (c : Char) (offset : ℕ) (rest : List Char) :
    readText '"' offset (Text.quoteChar byCode c ++ rest)
      = (readText '"' (offset + (Text.quoteChar byCode c).length) rest).map
          fun r => (c :: r.1, r.2) := by
  have escape (e : Char) (more : List Char)
      (h : readSpelling '"' offset '\\' (e :: more ++ rest) = .ok (c, 1 + more.length)) :
      readText '"' offset ('\\' :: e :: more ++ rest)
        = (readText '"' (offset + ('\\' :: e :: more).length) rest).map
            fun r => (c :: r.1, r.2) := by
    show readText '"' offset ('\\' :: (e :: more ++ rest)) = _
    rw [readText, if_neg (by decide), h]
    dsimp only
    have hdrop : (e :: more ++ rest).drop (1 + more.length) = rest := by
      rw [Nat.add_comm]
      show ((e :: more) ++ rest).drop (e :: more).length = rest
      exact List.drop_left
    rw [hdrop, List.length_cons, List.length_cons,
      show offset + 1 + (1 + more.length) = offset + (more.length + 1 + 1) by omega]
    cases readText '"' (offset + (more.length + 1 + 1)) rest <;> rfl
  have short (e : Char) (h : shortEscape? e = some c) :
      readText '"' offset (['\\', e] ++ rest)
        = (readText '"' (offset + ['\\', e].length) rest).map fun r => (c :: r.1, r.2) := by
    refine escape e [] ?_
    show readSpelling '"' offset '\\' (e :: rest) = _
    rw [readSpelling, if_pos rfl]
    simp only [h]
    rfl
  unfold Text.quoteChar
  split_ifs with h1 h2 h3 h4 h5 h6 h7 h8
  · exact short _ (by rw [h1]; decide)
  · exact short _ (by rw [h2]; decide)
  · exact short _ (by rw [h3]; decide)
  · exact short _ (by rw [h4]; decide)
  · exact short _ (by rw [h5]; decide)
  · exact short _ (by rw [← Char.ofNat_toNat c, h6]; decide)
  · exact short _ (by rw [← Char.ofNat_toNat c, h7]; decide)
  · refine escape 'u' (Text.hex4 c.toNat) ?_
    show readSpelling '"' offset '\\' ('u' :: (Text.hex4 c.toNat ++ rest)) = _
    have hnone : shortEscape? 'u' = none := by decide
    unfold readSpelling
    rw [if_pos rfl]
    simp only [hnone, if_true]
    exact readCode_hex4 offset (hcode c h8) rest
  · show readText '"' offset (c :: rest) = _
    have hself : readSpelling '"' offset c rest = .ok (c, 0) := by
      unfold readSpelling
      exact if_neg h2
    rw [readText, if_neg h1, hself]
    dsimp only
    rw [List.drop_zero, List.length_singleton, Nat.add_zero]
    cases readText '"' (offset + 1) rest <;> rfl

/-- **What stands between quotes is read as the characters that it was written for.** -/
theorem readText_quoted {byCode : Char → Bool} (hcode : ∀ c, byCode c = true → c.toNat < 0xd800)
    (cs : List Char) (offset : ℕ) (rest : List Char) :
    readText '"' offset (cs.flatMap (Text.quoteChar byCode) ++ '"' :: rest)
      = .ok (cs, offset + (cs.flatMap (Text.quoteChar byCode)).length) := by
  induction cs generalizing offset with
  | nil =>
    show readText '"' offset ('"' :: rest) = _
    rw [readText, if_pos rfl]
    rfl
  | cons c cs ih =>
    rw [List.flatMap_cons, List.append_assoc, readText_quoteChar hcode, ih, List.length_append,
      Nat.add_assoc]
    rfl

theorem isControl_lt {c : Char} (h : Text.isControl c = true) : c.toNat < 0xd800 := by
  rw [Text.isControl, Bool.or_eq_true, Bool.and_eq_true, decide_eq_true_eq, decide_eq_true_eq,
    decide_eq_true_eq] at h
  omega

/-- a quoted text is one token -/
theorem spells_quoted (s : String) (rest : List Char) : Spells (quoted s) rest [.text s] := by
  refine Spells.lexeme (c := '"') _ (by decide) ?_
  have hcode (c : Char) (h : Text.isControl c = true) : c.toNat < 0xd800 := isControl_lt h
  have hread := readText_quoted hcode s.toList 1 rest
  show scanText '"' (s.toList.flatMap (Text.quoteChar Text.isControl) ++ ['"'] ++ rest) = _
  rw [List.append_assoc, List.singleton_append, scanText, hread]
  dsimp only
  rw [String.ofList_toList, Nat.add_comm]
  show _ = Except.ok (Lexeme.mk (.text s) (_ ++ ['"']).length)
  rw [List.length_append, List.length_singleton]

/-! ## numbers -/

theorem Closes.not_digit {rest : List Char} (h : Closes rest) :
    ∀ c ∈ rest.head?, c.isDigit = false := by
  intro c hc
  rcases isCloser_cases (h c hc) with rfl | rfl | rfl | rfl | rfl <;> decide

theorem Closes.fractionPart {rest : List Char} (h : Closes rest) : fractionPart rest = [] := by
  unfold Token.fractionPart
  split
  · exact absurd (h '.' rfl) (by decide)
  · rfl

theorem Closes.exponentPart {rest : List Char} (h : Closes rest) :
    exponentPart? rest = some [] := by
  cases rest with
  | nil => rfl
  | cons c rest =>
    have hc : ¬(c = 'e' ∨ c = 'E') := by
      rcases isCloser_cases (h c rfl) with rfl | rfl | rfl | rfl | rfl <;> decide
    exact if_neg hc

/-- what a sign and digits are the beginning of is scanned as a number -/
theorem scan_number {c : Char} (h : c.isDigit = true ∨ c = '-') (rest : List Char) :
    isSeparator c = false ∧ scan c rest = scanNumber c rest := by
  rcases h with h | rfl
  · have hne {d : Char} (hd : d.isDigit = false) : c ≠ d := by
      rintro rfl
      rw [h] at hd
      cases hd
    constructor
    · rw [isSeparator]
      simp only [Bool.or_eq_false_iff, beq_eq_false_iff_ne]
      exact ⟨⟨⟨hne (by decide), hne (by decide)⟩, hne (by decide)⟩, hne (by decide)⟩
    · rw [scan, if_neg (not_or.mpr ⟨hne (by decide), hne (by decide)⟩), if_pos (.inl h)]
  · exact ⟨by decide, rfl⟩

theorem signed_cons {ds : List Char} (negative : Bool) (hne : ds ≠ [])
    (hd : ∀ c ∈ ds, c.isDigit = true) :
    ∃ c cs, (if negative then ['-'] else []) ++ ds = c :: cs ∧ (c.isDigit = true ∨ c = '-') := by
  cases negative with
  | true => exact ⟨'-', ds, rfl, .inr rfl⟩
  | false =>
    obtain ⟨c, cs, rfl⟩ := List.exists_cons_of_ne_nil hne
    exact ⟨c, cs, rfl, .inl (hd c List.mem_cons_self)⟩

theorem spells_integer {n : ℤ} (hn : inIntegerRange n = true) {rest : List Char}
    (hrest : Closes rest) : Spells (Decimal.intChars n) rest [.integer n] := by
  have hd : ∀ c ∈ Nat.toDigits 10 n.natAbs, c.isDigit = true :=
    fun c => Decimal.isDigit_of_mem_toDigits
  have hne : Nat.toDigits 10 n.natAbs ≠ [] := Nat.toDigits_ne_nil
  have hint := Decimal.intOfText_intChars n
  have hsplit := Decimal.splitSign_signed (decide (n < 0)) hne hd rest
  obtain ⟨c, cs, heq, hc⟩ := signed_cons (decide (n < 0)) hne hd
  have htake := takeWhile_append_of_head hd hrest.not_digit
  have hspan := congrArg Prod.snd (Decimal.spanDigits_append hd hrest.not_digit)
  have hchars : Decimal.intChars n = c :: cs := by
    rw [← heq]
    unfold Decimal.intChars
    simp only [decide_eq_true_eq]
  rw [heq] at hsplit
  rw [hchars] at hint ⊢
  refine Spells.lexeme _ (scan_number hc []).1 ?_
  rw [(scan_number hc _).2]
  unfold scanNumber
  rw [← List.cons_append, hsplit]
  dsimp only
  have hwhole : (Nat.toDigits 10 n.natAbs).isEmpty = false := List.isEmpty_eq_false_iff.mpr hne
  have hdrop : (Nat.toDigits 10 n.natAbs ++ rest).dropWhile Char.isDigit = rest := hspan
  rw [htake, hdrop, hwhole, Bool.and_false, if_neg Bool.false_ne_true, hrest.fractionPart,
    List.length_nil, List.drop_zero, hrest.exponentPart]
  dsimp only
  rw [List.append_nil, List.append_nil, heq, hint, if_pos (by rfl), if_pos hn]
  rfl

theorem spells_float {x : Float} (hx : Decimal.isFinite x = true) {rest : List Char}
    (hrest : Closes rest) : Spells (Decimal.Layout.literal.chars x) rest [.float x] := by
  have hread := Decimal.ofText_literal_chars hx
  obtain ⟨negative, q, whole, fraction, ds, hp, hchars, _⟩ := Decimal.literal_chars hx
  rw [hchars, hp.chars] at hread ⊢
  obtain ⟨c, cs, heq, hc⟩ := signed_cons negative hp.whole_ne hp.whole_digits
  obtain ⟨d, ds, rfl⟩ := List.exists_cons_of_ne_nil hp.fraction_ne
  have hpoint : ∀ c ∈ ('.' :: (d :: ds) ++ rest).head?, c.isDigit = false := by
    intro c hc
    cases hc
    rfl
  have hsplit := Decimal.splitSign_signed negative hp.whole_ne hp.whole_digits
    ('.' :: (d :: ds) ++ rest)
  have htake := takeWhile_append_of_head hp.whole_digits hpoint
  have hdrop : (whole ++ ('.' :: (d :: ds) ++ rest)).dropWhile Char.isDigit
      = '.' :: (d :: ds) ++ rest :=
    congrArg Prod.snd (Decimal.spanDigits_append hp.whole_digits hpoint)
  have hfraction : fractionPart ('.' :: (d :: ds) ++ rest) = '.' :: (d :: ds) := by
    show (if d.isDigit then '.' :: d :: (ds ++ rest).takeWhile Char.isDigit else []) = _
    rw [if_pos (hp.fraction_digits d List.mem_cons_self), takeWhile_append_of_head
      (fun c hc => hp.fraction_digits c (List.mem_cons_of_mem d hc)) hrest.not_digit]
  have hwhole : whole.isEmpty = false := List.isEmpty_eq_false_iff.mpr hp.whole_ne
  rw [← List.append_assoc, heq, List.cons_append] at hread ⊢
  rw [heq] at hsplit
  refine Spells.lexeme _ (scan_number hc []).1 ?_
  rw [(scan_number hc _).2]
  unfold scanNumber
  rw [List.append_assoc, ← List.cons_append, hsplit]
  dsimp only
  rw [htake, hdrop, hwhole, Bool.and_false, if_neg Bool.false_ne_true, hfraction, List.drop_left,
    hrest.exponentPart]
  dsimp only
  rw [List.append_nil, heq, List.cons_append, if_neg (by simp), hread]
  dsimp only
  rw [if_pos hx]
  rfl

end PathQuery.Token
