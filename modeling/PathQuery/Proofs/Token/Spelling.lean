import PathQuery.Token.Lexer
import PathQuery.Filter.Printer
import PathQuery.Proofs.Decimal.Literals

/-!
# The spelling of tokens

Every text below is read as the tokens that it was written for, whatever position it stands at
and whatever text stands behind it, as long as that text does not go on with the last lexeme.

* `Breaks`, `Closes`      the texts that do not go on with a name, or with a number;
* `Spells cs rest kinds`  `cs` is read as tokens of those kinds in front of `rest`;
* `spells_name`, `spells_quoted`, `spells_integer`, `spells_float`   the lexemes of many characters.
-/

namespace PathQuery.Token

/-! ## texts in front of texts -/

/-- the text does not begin with what a name goes on with -/
def Breaks (rest : List Char) : Prop := ∀ c ∈ rest.head?, isNamePart c = false

/-- the characters that stand behind the literals of a text -/
def isCloser (c : Char) : Bool := c == ' ' || c == ')' || c == ']' || c == ',' || c == ':'

/-- the text begins with what ends a literal, if it does not end there -/
def Closes (rest : List Char) : Prop := ∀ c ∈ rest.head?, isCloser c = true

/-- the characters are read as tokens of the given kinds, and then the rest is read -/
def Spells (cs rest : List Char) (kinds : List Kind) : Prop :=
  ∀ position, ∃ tokens : List Token, tokens.map Token.kind = kinds ∧
    lexFrom position (cs ++ rest) = (lexFrom (position + cs.length) rest).map (tokens ++ ·)

theorem breaks_cons {c : Char} (h : isNamePart c = false) (rest : List Char) :
    Breaks (c :: rest) := by
  intro c' hc'
  cases hc'
  exact h

theorem closes_cons {c : Char} (h : isCloser c = true) (rest : List Char) : Closes (c :: rest) := by
  intro c' hc'
  cases hc'
  exact h

theorem isCloser_cases {c : Char} (h : isCloser c = true) :
    c = ' ' ∨ c = ')' ∨ c = ']' ∨ c = ',' ∨ c = ':' := by
  simpa [isCloser, or_assoc] using h

theorem Closes.breaks {rest : List Char} (h : Closes rest) : Breaks rest := by
  intro c hc
  rcases isCloser_cases (h c hc) with rfl | rfl | rfl | rfl | rfl <;> decide

theorem map_nil_append (x : Except PathError (List Token)) : x.map ([] ++ ·) = x := by
  cases x <;> rfl

theorem lexFrom_separator {c : Char} (hc : isSeparator c = true) (position : ℕ)
    (rest : List Char) : lexFrom position (c :: rest) = lexFrom (position + 1) rest := by
  rw [lexFrom, if_pos hc]

theorem lexFrom_lexeme {c : Char} {cs rest : List Char} {kind : Kind} (hc : isSeparator c = false)
    (h : scan c (cs ++ rest) = .ok ⟨kind, cs.length⟩) (position : ℕ) :
    lexFrom position (c :: cs ++ rest) =
      (lexFrom (position + (c :: cs).length) rest).map ([⟨kind, position⟩] ++ ·) := by
  rw [List.cons_append, lexFrom, if_neg (by rw [hc]; exact Bool.false_ne_true), h]
  dsimp only
  rw [List.drop_left, List.length_cons, Nat.add_right_comm, Nat.add_assoc]
  cases lexFrom (position + (cs.length + 1)) rest <;> rfl

namespace Spells

theorem nil (rest : List Char) : Spells [] rest [] := by
  intro position
  exact ⟨[], rfl, (map_nil_append _).symm⟩

theorem append_nil {cs rest : List Char} {ks : List Kind} (h : Spells cs rest ks) :
    Spells (cs ++ []) rest (ks ++ []) := by
  rw [List.append_nil, List.append_nil]
  exact h

theorem append {cs ds rest : List Char} {ks ls : List Kind} (h₁ : Spells cs (ds ++ rest) ks)
    (h₂ : Spells ds rest ls) : Spells (cs ++ ds) rest (ks ++ ls) := by
  intro position
  obtain ⟨ts, hts, ht⟩ := h₁ position
  obtain ⟨us, hus, hu⟩ := h₂ (position + cs.length)
  refine ⟨ts ++ us, by rw [List.map_append, hts, hus], ?_⟩
  rw [List.append_assoc, ht, hu, List.length_append, Nat.add_assoc]
  cases lexFrom (position + (cs.length + ds.length)) rest with
  | error e => rfl
  | ok vs => exact congrArg Except.ok (List.append_assoc ts us vs).symm

theorem blank (rest : List Char) : Spells [' '] rest [] := by
  intro position
  refine ⟨[], rfl, ?_⟩
  rw [map_nil_append]
  exact lexFrom_separator (by decide) position rest

theorem lexeme {c : Char} (cs : List Char) {rest : List Char} {kind : Kind}
    (hc : isSeparator c = false) (h : scan c (cs ++ rest) = .ok ⟨kind, cs.length⟩) :
    Spells (c :: cs) rest [kind] :=
  fun position => ⟨[⟨kind, position⟩], rfl, lexFrom_lexeme hc h position⟩

theorem single {c : Char} {rest : List Char} {kind : Kind} (hc : isSeparator c = false)
    (h : scan c rest = .ok ⟨kind, 0⟩) : Spells [c] rest [kind] :=
  lexeme [] hc h

theorem lexFrom_eq {cs : List Char} {kinds : List Kind} (h : Spells cs [] kinds) (position : ℕ) :
    ∃ tokens : List Token, tokens.map Token.kind = kinds ++ [.eof] ∧
      lexFrom position cs = .ok tokens := by
  obtain ⟨ts, hts, ht⟩ := h position
  refine ⟨ts ++ [⟨.eof, position + cs.length⟩], by rw [List.map_append, hts]; rfl, ?_⟩
  rw [List.append_nil] at ht
  rw [ht, lexFrom]
  rfl

end Spells

/-! ## symbols -/

theorem punctuation_cases {c : Char} {kind : Kind} (hc : punctuation? c = some kind) :
    c = '[' ∨ c = ']' ∨ c = '(' ∨ c = ')' ∨ c = ',' ∨ c = ':' ∨ c = '?' ∨ c = '@' ∨ c = '*' := by
  by_contra hne
  simp only [not_or] at hne
  obtain ⟨h1, h2, h3, h4, h5, h6, h7, h8, h9⟩ := hne
  rw [punctuation?, if_neg h1, if_neg h2, if_neg h3, if_neg h4, if_neg h5, if_neg h6, if_neg h7,
    if_neg h8, if_neg h9] at hc
  cases hc

theorem scan_punctuation {c : Char} {kind : Kind} (hc : punctuation? c = some kind)
    (rest : List Char) : scan c rest = .ok ⟨kind, 0⟩ := by
  rcases punctuation_cases hc with rfl | rfl | rfl | rfl | rfl | rfl | rfl | rfl | rfl <;>
    (cases hc; rfl)

theorem spells_punctuation {c : Char} {kind : Kind} (hc : punctuation? c = some kind)
    (rest : List Char) : Spells [c] rest [kind] := by
  refine Spells.single ?_ (scan_punctuation hc rest)
  rcases punctuation_cases hc with rfl | rfl | rfl | rfl | rfl | rfl | rfl | rfl | rfl <;> decide

theorem scanDots_dot {rest : List Char} (h : ∀ c ∈ rest.head?, c ≠ '.') :
    scanDots rest = .ok ⟨.dot, 0⟩ := by
  unfold scanDots
  split
  · exact absurd rfl (h '.' rfl)
  · exact absurd rfl (h '.' rfl)
  · rfl

theorem scanDots_dots {rest : List Char} (h : ∀ c ∈ rest.head?, c ≠ '.') :
    scanDots ('.' :: rest) = .ok ⟨.dots, 1⟩ := by
  unfold scanDots
  split
  · rename_i heq
    cases heq
    exact absurd rfl (h '.' rfl)
  · rfl
  · rename_i hne
    exact absurd rfl (hne rest)

theorem spells_dot {rest : List Char} (h : ∀ c ∈ rest.head?, c ≠ '.') :
    Spells ['.'] rest [.dot] :=
  Spells.single (by decide) (scanDots_dot h)

theorem spells_dots {rest : List Char} (h : ∀ c ∈ rest.head?, c ≠ '.') :
    Spells ['.', '.'] rest [.dots] :=
  Spells.lexeme ['.'] (by decide) (scanDots_dots h)

theorem spells_not {rest : List Char} (h : ∀ c ∈ rest.head?, c ≠ '=') :
    Spells ['!'] rest [.not] := by
  refine Spells.single (by decide) ?_
  show scanOperator '!' rest.head? = _
  have hne : rest.head? ≠ some '=' := fun e => h '=' e rfl
  unfold scanOperator
  rw [if_neg (by decide), if_pos rfl, if_neg hne]

theorem spells_root {rest : List Char} (h : Breaks rest) : Spells ['$'] rest [.root] := by
  refine Spells.single (by decide) ?_
  have hgoes : goesOn rest = false := by
    cases rest with
    | nil => rfl
    | cons c cs => exact h c rfl
  show (if goesOn rest then _ else _) = _
  rw [hgoes]
  rfl

/-! ## names -/

def wordKind (word : String) : Kind := (keyword? word).getD (.identifier word)

theorem isDigit_bounds {c : Char} (h : c.isDigit = true) : 48 ≤ c.toNat ∧ c.toNat ≤ 57 :=
  Char.isDigit_iff_toNat.mp h

theorem isAlpha_eq_false_of_isDigit {c : Char} (h : c.isDigit = true) : c.isAlpha = false := by
  obtain ⟨_, h2⟩ := isDigit_bounds h
  by_contra ha
  rw [Bool.not_eq_false] at ha
  simp only [Char.isAlpha, Char.isUpper, Char.isLower, Bool.or_eq_true, Bool.and_eq_true,
    decide_eq_true_eq, ge_iff_le, UInt32.le_iff_toNat_le, Char.toNat_val] at ha
  have hA : 'A'.toNat = 65 := rfl
  have ha' : 'a'.toNat = 97 := rfl
  omega

theorem isAscii_of_isDigit {c : Char} (h : c.isDigit = true) : Text.isAscii c = true := by
  obtain ⟨_, h2⟩ := isDigit_bounds h
  rw [Text.isAscii, decide_eq_true_eq]
  omega

theorem isNameStart_ne {c d : Char} (h : isNameStart c = true) (hd : isNameStart d = false) :
    c ≠ d := by
  rintro rfl
  rw [h] at hd
  cases hd

theorem isDigit_of_isNameStart {c : Char} (h : isNameStart c = true) : c.isDigit = false := by
  by_contra hd
  rw [Bool.not_eq_false] at hd
  have hascii := isAscii_of_isDigit hd
  have halpha := isAlpha_eq_false_of_isDigit hd
  rw [isNameStart, Text.isAlphabetic, if_pos hascii, halpha, Bool.false_or, Bool.or_eq_true,
    beq_iff_eq, beq_iff_eq] at h
  rcases h with rfl | rfl <;> exact absurd hd (by decide)

theorem isSeparator_of_isNameStart {c : Char} (h : isNameStart c = true) :
    isSeparator c = false := by
  by_contra hs
  rw [Bool.not_eq_false, isSeparator] at hs
  simp only [Bool.or_eq_true, beq_iff_eq, or_assoc] at hs
  rcases hs with rfl | rfl | rfl | rfl <;> exact absurd h (by decide)

theorem isOperatorSymbol_of_isNameStart {c : Char} (h : isNameStart c = true) :
    isOperatorSymbol c = false := by
  by_contra hs
  rw [Bool.not_eq_false, isOperatorSymbol] at hs
  simp only [Bool.or_eq_true, beq_iff_eq, or_assoc] at hs
  rcases hs with rfl | rfl | rfl | rfl | rfl | rfl <;> exact absurd h (by decide)

theorem punctuation_of_isNameStart {c : Char} (h : isNameStart c = true) :
    punctuation? c = none := by
  have hne {d : Char} (hd : isNameStart d = false) : c ≠ d := isNameStart_ne h hd
  rw [punctuation?, if_neg (hne (by decide)), if_neg (hne (by decide)), if_neg (hne (by decide)),
    if_neg (hne (by decide)), if_neg (hne (by decide)), if_neg (hne (by decide)),
    if_neg (hne (by decide)), if_neg (hne (by decide)), if_neg (hne (by decide))]

/-- what starts a name starts a word, unless it is a lone `$` -/
theorem scan_of_isNameStart {c : Char} (h : isNameStart c = true) {rest : List Char}
    (hroot : c = '$' → goesOn rest = true) : scan c rest = .ok (scanWord c rest) := by
  have hne {d : Char} (hd : isNameStart d = false) : c ≠ d := isNameStart_ne h hd
  have hquote : ¬(c = '\'' ∨ c = '"') := not_or.mpr ⟨hne (by decide), hne (by decide)⟩
  have hnumber : ¬(c.isDigit ∨ c = '-') := by
    rw [isDigit_of_isNameStart h]
    exact not_or.mpr ⟨Bool.false_ne_true, hne (by decide)⟩
  have hoperator : ¬isOperatorSymbol c = true := by
    rw [isOperatorSymbol_of_isNameStart h]
    exact Bool.false_ne_true
  unfold scan
  rw [if_neg hquote, if_neg hnumber, if_neg hoperator]
  by_cases hc : c = '$'
  · rw [if_pos hc, if_pos (hroot hc)]
  · rw [if_neg hc, if_neg (hne (by decide)), punctuation_of_isNameStart h]
    dsimp only
    rw [if_pos h]

theorem takeWhile_append_of_head {p : Char → Bool} {cs rest : List Char}
    (hcs : ∀ c ∈ cs, p c = true) (hrest : ∀ c ∈ rest.head?, p c = false) :
    (cs ++ rest).takeWhile p = cs := by
  rw [List.takeWhile_append_of_pos hcs]
  cases rest with
  | nil => rw [List.takeWhile_nil, List.append_nil]
  | cons c rest => rw [List.takeWhile_cons, hrest c rfl]; exact List.append_nil cs

theorem isPlainName_cases {name : String} (h : isPlainName name = true) :
    ∃ c cs, name.toList = c :: cs ∧ isNameStart c = true ∧ (∀ d ∈ cs, isNamePart d = true) ∧
      (c = '$' → cs ≠ []) := by
  rw [isPlainName] at h
  split at h
  · cases h
  · rename_i c cs heq
    rw [Bool.and_eq_true, Bool.and_eq_true, List.all_eq_true, Bool.not_eq_true'] at h
    obtain ⟨⟨h1, h2⟩, h3⟩ := h
    refine ⟨c, cs, heq, h1, h2, ?_⟩
    rintro rfl rfl
    cases h3

theorem spells_name {name : String} (h : isPlainName name = true) {rest : List Char}
    (hrest : Breaks rest) : Spells name.toList rest [wordKind name] := by
  obtain ⟨c, cs, heq, hc, hcs, hroot⟩ := isPlainName_cases h
  have hname : String.ofList (c :: cs) = name := by rw [← heq, String.ofList_toList]
  rw [heq]
  refine Spells.lexeme _ (isSeparator_of_isNameStart hc) ?_
  rw [scan_of_isNameStart hc, scanWord, takeWhile_append_of_head hcs hrest, hname]
  · rfl
  · intro e
    obtain ⟨d, ds, rfl⟩ := List.exists_cons_of_ne_nil (hroot e)
    exact hcs d List.mem_cons_self

theorem isPlainName_ne_dot {name : String} (h : isPlainName name = true) (rest : List Char) :
    ∀ c ∈ (name.toList ++ rest).head?, c ≠ '.' := by
  obtain ⟨c, cs, heq, hc, _⟩ := isPlainName_cases h
  rw [heq]
  intro d hd
  cases hd
  exact isNameStart_ne hc (by decide)

theorem keyword_cases (word : String) : keyword? word = none ∨
    ∃ kind, keyword? word = some kind ∧ kind.word? = some word := by
  rcases h : keyword? word with _ | kind
  · exact .inl rfl
  · refine .inr ⟨kind, rfl, ?_⟩
    unfold keyword? at h
    split_ifs at h with h1 h2 h3 h4 h5 h6 h7 <;> subst word <;> cases h <;> rfl

theorem word_wordKind (name : String) : (wordKind name).word? = some name := by
  rcases keyword_cases name with h | ⟨kind, h, hword⟩
  · rw [wordKind, h]
    rfl
  · rw [wordKind, h]
    exact hword

theorem wordKind_of_not_keyword {name : String} (h : isKeyword name = false) :
    wordKind name = .identifier name := by
  rw [isKeyword, Option.isSome_eq_false_iff, Option.isNone_iff_eq_none] at h
  rw [wordKind, h]
  rfl

end PathQuery.Token
